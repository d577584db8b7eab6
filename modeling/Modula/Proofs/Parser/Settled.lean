import Modula.Proofs.Parser.Termination

/-!
# Settled states

A state is settled when the next symbol is no pragma. Parts of a run that look before they accept do the same from a
state and from the state with its first pragmas passed, and all units look first.
-/

set_option autoImplicit false

namespace Modula

open SymbolReader

/-- Behind pragmas comes none. -/
theorem firstToken_withoutPragmas (ahead : List Symbol) : firstToken (withoutPragmas ahead) ≠ .pragma := by
  induction ahead with
  | nil => simp [withoutPragmas]
  | cons t others ih =>
    by_cases ht : t.token = .pragma
    · simpa [withoutPragmas, ht] using ih
    · simp [withoutPragmas, ht]

/-- Where no pragma comes first there is nothing to pass. -/
theorem withoutPragmas_of_settled {ahead : List Symbol} (h : firstToken ahead ≠ .pragma) :
    withoutPragmas ahead = ahead := by
  cases ahead with
  | nil => rfl
  | cons t others =>
    have ht : t.token ≠ .pragma := h
    simp [withoutPragmas, ht]

/-- The symbols that are no pragmas. -/
def bare (ahead : List Symbol) : List Symbol := ahead.filter (·.token ≠ .pragma)

/-- Symbols lose their pragmas row by row. -/
theorem bare_append (ahead ahead' : List Symbol) : bare (ahead ++ ahead') = bare ahead ++ bare ahead' :=
  List.filter_append ..

/-- A symbol that is no pragma stays. -/
theorem bare_cons {t : Symbol} (ht : t.token ≠ .pragma) (ahead : List Symbol) : bare (t :: ahead) = t :: bare ahead := by
  simp [bare, ht]

/-- Where there are no pragmas all symbols stay. -/
theorem bare_eq_self {ahead : List Symbol} (h : ∀ t ∈ ahead, t.token ≠ .pragma) : bare ahead = ahead := by
  simpa [bare] using h

/-- Passing the first pragmas is passing pragmas. -/
theorem bare_withoutPragmas (ahead : List Symbol) : bare (withoutPragmas ahead) = bare ahead := by
  induction ahead with
  | nil => rfl
  | cons t others ih =>
    by_cases ht : t.token = .pragma
    · simpa [bare, withoutPragmas, ht] using ih
    · simp [withoutPragmas, ht]

/-- When the next symbol is no pragma, it is the first one that is none. -/
theorem bare_of_settled {ahead : List Symbol} (h : firstToken ahead ≠ .pragma) :
    (bare ahead).head? = ahead.head? ∧ (bare ahead).tail = bare ahead.tail := by
  cases ahead with
  | nil => exact ⟨rfl, rfl⟩
  | cons t others =>
    have ht : t.token ≠ .pragma := h
    rw [bare_cons ht]
    exact ⟨rfl, rfl⟩

/-- Once pragmas have been passed none is next. -/
theorem SymbolReader.Passes.next_token {r r' : SymbolReader} (h : Passes r r') : r'.next.token ≠ .pragma := by
  induction h with
  | stop h => exact h
  | pass h less next ih => exact ih

namespace ParserState

variable {s : ParserState}

/-- Passing pragmas where there are none changes nothing. -/
theorem settle_of_next (h : s.reader.next.token ≠ .pragma) : s.settle = s := by
  have hwithin : ∀ n, skipPragmasWithin n s.reader = s.reader := by
    intro n
    cases n with
    | zero => rfl
    | succ n => rw [skipPragmasWithin, if_neg h]
  rw [settle, skipPragmas, hwithin]

/-- A state settles once. -/
theorem Ready.settle_settle (h : s.Ready) : s.settle.settle = s.settle :=
  settle_of_next h.passes.1.next_token

end ParserState

namespace Action

variable {α : Type} {s t : ParserState}

/-- Whether an action accepts a symbol. -/
def accepts : Action α → Bool
  | .accept => true
  | _ => false

/-- Whether an action asks for the identifier after a point. -/
def AsksQualifies : Action α → Prop
  | .qualifies => True
  | _ => False

/-- In a settled state all actions but accepting leave the symbols ahead. -/
theorem ahead_perform {action : Action α} (h : action.accepts = false) (hready : s.Ready)
    (hsettled : firstToken s.reader.ahead ≠ .pragma) : (action.perform s).2.reader.ahead = s.reader.ahead := by
  have hleaves := (action.perform_leaves hready).2
  have hstays := withoutPragmas_of_settled hsettled
  cases action with
  | accept => cases h
  | lookahead | qualifies => exact hleaves.1.trans hstays
  | enter p => exact hleaves.elim id fun hahead => hahead.trans hstays
  | reject expected | rejectClosing closing | warnNext code | warnAccepted code | skipped n => exact hleaves
  | build r => exact hleaves.1

/-- A settled state stays settled. -/
theorem settled_perform (action : Action α) (hready : s.Ready) (hsettled : firstToken s.reader.ahead ≠ .pragma) :
    firstToken (action.perform s).2.reader.ahead ≠ .pragma := by
  cases haccepts : action.accepts with
  | false => rwa [ahead_perform haccepts hready hsettled]
  | true =>
    cases action with
    | accept =>
      rw [(accept.perform_leaves hready).2.1]
      exact firstToken_withoutPragmas _
    | _ => cases haccepts

/-- In a settled state looking ahead shows the first token. -/
theorem lookahead_of_settled (hready : s.Ready) (hsettled : firstToken s.reader.ahead ≠ .pragma) :
    (lookahead.perform s).1 = (firstToken s.reader.ahead).wellFormed := by
  rw [(lookahead.perform_leaves hready).2.2, ahead_perform rfl hready hsettled]

/-- In a settled state it is told from the first two tokens whether a name goes on. -/
theorem qualifies_of_settled (hready : s.Ready) (hsettled : firstToken s.reader.ahead ≠ .pragma) :
    (qualifies.perform s).1 =
      decide (firstToken s.reader.ahead = .dot ∧ firstToken s.reader.ahead.tail = .ident) := by
  rw [(qualifies.perform_leaves hready).2.2, ahead_perform rfl hready hsettled]

/-- Where the first token is the same, an action that accepts nothing yields the same. Only one that asks for a point with an
identifier after it depends on more. -/
theorem yields_congr {action : Action α} (h : action.accepts = false) (hs : s.Ready) (ht : t.Ready)
    (hsettled : firstToken s.reader.ahead ≠ .pragma) (hsettled' : firstToken t.reader.ahead ≠ .pragma)
    (hfirst : (firstToken s.reader.ahead).wellFormed = (firstToken t.reader.ahead).wellFormed)
    (hqualifies : action.AsksQualifies → (firstToken s.reader.ahead = .dot ∧ firstToken s.reader.ahead.tail = .ident ↔
      firstToken t.reader.ahead = .dot ∧ firstToken t.reader.ahead.tail = .ident)) :
    (action.perform s).1 = (action.perform t).1 := by
  cases action with
  | accept => cases h
  | lookahead => rw [lookahead_of_settled hs hsettled, lookahead_of_settled ht hsettled', hfirst]
  | qualifies =>
    rw [qualifies_of_settled hs hsettled, qualifies_of_settled ht hsettled', decide_eq_decide]
    exact hqualifies trivial
  | build node => rw [((build node).perform_leaves hs).2.2, ((build node).perform_leaves ht).2.2]
  | enter p | reject expected | rejectClosing closing | warnNext code | warnAccepted code | skipped n => rfl

end Action

namespace Script

variable {callRule : Rule → ParserState → Node × ParserState} {s : ParserState} {α β : Type}

/-- A script does the same once the pragmas before the next symbol are passed. -/
def Looks (callRule : Rule → ParserState → Node × ParserState) (script : Script α) (s : ParserState) : Prop :=
  script.run callRule s.settle = script.run callRule s

/-- A script looks ahead first if its first part does. -/
theorem Looks.bind {first : Script α} {next : α → Script β} (h : Looks callRule first s) :
    Looks callRule (first >>= next) s := by
  show (first.bind next).run callRule s.settle = (first.bind next).run callRule s
  rw [Script.run, Script.run, show first.run callRule s.settle = first.run callRule s from h]

/-- Looking ahead does so. -/
theorem looks_lookahead (h : s.Ready) : Looks callRule lookahead s := by
  show Action.perform .lookahead s.settle = Action.perform .lookahead s
  rw [Action.perform, Action.perform, h.settle_settle]

/-- Entering a production looks at the next symbol only if productions are logged. -/
theorem Looks.enter {p : Production} {next : Unit → Script β} (h : s.Ready) (hnext : Looks callRule (next ()) s) :
    Looks callRule (Script.enter p >>= next) s := by
  have hrun : ∀ t : ParserState, (Script.enter p >>= next).run callRule t =
      (next ()).run callRule (Action.perform (.enter p) t).2 := fun _ => rfl
  rw [Looks, hrun, hrun]
  by_cases hlogs : s.logsProductions = true
  · have hsettled : s.settle.logsProductions = true := hlogs
    rw [Action.perform, Action.perform, if_pos hlogs, if_pos hsettled, h.settle_settle]
  · have hsettled : ¬s.settle.logsProductions = true := hlogs
    rw [Action.perform, Action.perform, if_neg hlogs, if_neg hsettled]
    exact hnext

/-- So does every unit. -/
theorem looks_unit (ctx : Context) (kind : UnitKind) (h : s.Ready) : Looks callRule (unit ctx kind) s := by
  cases kind with
  | definition => exact .bind (.enter h (.bind (.bind (.bind (.bind (looks_lookahead h))))))
  | implementation => exact .bind (looks_lookahead h)

end Script

/-- The run of a parse, seen from the state in which the pragmas at the start of the text are passed. -/
theorem parseSymbols_advances_settled (o : Options) (kind : UnitKind) {s : Source} (h : s.rest.length ≤ s.length) :
    Script.Advances (Rule.body o.context) ((ParserState.start o (.ofSource o s)).settle.remaining + 1)
      (Script.unit o.context kind) (ParserState.start o (.ofSource o s)).settle (parseSymbols o kind (.ofSource o s)).1
      (parseSymbols o kind (.ofSource o s)).2 := by
  have hready := ready_start (o := o) h
  have hsettled := hready.settle.1
  have hlooks : parseSymbols o kind (.ofSource o s) = (Script.unit o.context kind).run
      (Rule.run (Rule.body o.context) ((ofSource o s).total + 1)) (ParserState.start o (.ofSource o s)).settle :=
    (Script.looks_unit o.context kind hready).symm
  have htotal : (ParserState.start o (.ofSource o s)).settle.reader.total = (ofSource o s).total :=
    (hready.passes.1.ends hready.ends).2.2
  have henough := hsettled.enough
  rw [htotal] at henough
  rw [hlooks]
  exact (Script.Ensures.completes (Script.halts_body o.context) hsettled (Nat.succ_le_succ henough)
    ((Script.progresses_unit kind).halts true (fun _ => Nat.lt_succ_self _) _ le_rfl)).advances

end Modula
