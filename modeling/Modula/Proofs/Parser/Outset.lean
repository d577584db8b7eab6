import Modula.Proofs.Parser.Acceptance
import Modula.Proofs.Parser.Beside

/-!
# What a script does first

Where a script cannot go on it still may end: it looks at the next token, finds that no more of it is there, and builds
its node. What it does first is computed from the next token (`Script.outset`). If it ends, it has taken nothing and
reported nothing, and if it rejects the next symbol, there is an error (`Advances.outset`).
-/

set_option autoImplicit false

namespace Modula

open SymbolReader ParserState

/-- What a script does first, apart from looking and building: it ends, rejects something, or goes on in another way. -/
inductive Outset (α : Type) where
  | ends (a : α)
  | rejects
  | goesOn

namespace Outset

variable {α β : Type}

/-- Once something has ended, something else comes first. -/
def bind : Outset α → (α → Outset β) → Outset β
  | ends a, next => next a
  | rejects, _ => rejects
  | goesOn, _ => goesOn

/-- What a first part ends with is handed on. -/
@[simp] theorem bind_ends (a : α) (next : α → Outset β) : (ends a).bind next = next a := rfl

/-- A script rejects what its first part does. -/
@[simp] theorem bind_rejects (next : α → Outset β) : rejects.bind next = rejects := rfl

/-- A script goes on beyond the first symbol if its first part does. -/
@[simp] theorem bind_goesOn (next : α → Outset β) : goesOn.bind next = goesOn := rfl

/-- A loop ends with its first round, or goes on. -/
def round : ForInStep α → Outset α
  | .done a => ends a
  | .yield _ => goesOn

/-- A loop ends with its first round. -/
@[simp] theorem round_done (a : α) : round (.done a) = ends a := rfl

/-- A loop that goes on is followed no further. -/
@[simp] theorem round_yield (a : α) : round (.yield a) = goesOn := rfl

end Outset

/-- What an action does at a token. -/
def Action.outset {α : Type} (t : Token) : Action α → Outset α
  | .lookahead => .ends t
  | .qualifies => if t = .dot then .goesOn else .ends false
  | .enter _ | .skipped _ => .ends ()
  | .build node => .ends (node.toOption.getD .empty)
  | .reject _ | .rejectClosing _ => .rejects
  | .accept | .warnNext _ | .warnAccepted _ => .goesOn

namespace Script

/-- What a script does first at a token, given which rules reject it. -/
def outset (refused : Rule → Bool) (t : Token) {α : Type} : Script α → Outset α
  | .pure a => .ends a
  | .bind first next => (first.outset refused t).bind fun a => (next a).outset refused t
  | .act action => action.outset t
  | .call rule => if refused rule then .rejects else .goesOn
  | .loop init step => ((step init).outset refused t).bind .round

variable {refused : Rule → Bool} {t : Token} {α β : Type}

/-- A script that does nothing ends at once. -/
@[simp] theorem outset_pure (a : α) : (Pure.pure a : Script α).outset refused t = .ends a := rfl

/-- The second part starts where the first one ends. -/
@[simp] theorem outset_bind (first : Script α) (next : α → Script β) :
    (first >>= next).outset refused t = (first.outset refused t).bind fun a => (next a).outset refused t := rfl

/-- A loop starts as its first round does. -/
@[simp] theorem outset_loop (init : α) (step : α → Script (ForInStep α)) :
    (loop init step).outset refused t = ((step init).outset refused t).bind .round := rfl

/-- A call rejects the token if the rule is said to. -/
@[simp] theorem outset_call (rule : Rule) :
    (call rule).outset refused t = if refused rule then .rejects else .goesOn := rfl

/-- A single action starts as it is. -/
@[simp] theorem outset_act (action : Action α) : (act action).outset refused t = action.outset t := rfl

/-- Looking at the token yields it. -/
@[simp] theorem outset_lookahead : lookahead.outset refused t = .ends t := rfl

/-- Accepting the token goes on. -/
@[simp] theorem outset_accept : accept.outset refused t = .goesOn := rfl

/-- So it does if its characters do not matter. -/
@[simp] theorem outset_skip : skip.outset refused t = .goesOn := rfl

/-- Entering a production leaves the token. -/
@[simp] theorem outset_enter (p : Production) : (enter p).outset refused t = .ends () := rfl

/-- A test for a production is decided by the token. -/
@[simp] theorem outset_starts (ctx : Context) (p : Production) :
    (starts ctx p).outset refused t = .ends ((p.first ctx).contains t) := rfl

/-- So is a test for a token. -/
@[simp] theorem outset_nextIs (u : Token) : (nextIs u).outset refused t = .ends (decide (t = u)) := rfl

/-- A token that is demanded is accepted, and any other rejected. -/
@[simp] theorem outset_demand (u : Token) (resume : TokenSet) :
    (demand u resume).outset refused t = if t = u then .goesOn else .rejects := by
  by_cases h : t = u <;> simp [demand, h, Action.outset]

/-- So it is where a token is expected. -/
@[simp] theorem outset_expect (u : Token) (resume : TokenSet) :
    (expect u resume).outset refused t = if t = u then .goesOn else .rejects := by
  by_cases h : t = u <;> simp [expect, h]

/-- So it is where an identifier is. -/
@[simp] theorem outset_expectIdent (resume : TokenSet) :
    (expectIdent resume).outset refused t = if t = .ident then .goesOn else .rejects := outset_demand _ _

/-- Where no alternative starts the token is rejected. -/
@[simp] theorem outset_noAlternative (ctx : Context) (p : Production) :
    (noAlternative ctx p).outset refused t = .rejects := rfl

end Script

/-! ## Runs -/

namespace ParserState

/-- A state in which nothing has happened besides looking and building. -/
structure Lingers (s s' : ParserState) : Prop where
  leads : s.Leads [] s'
  ahead : s'.reader.ahead = s.reader.ahead
  accepted : s'.accepted = s.accepted

variable {s t u : ParserState}

/-- A settled state stays where it is. -/
theorem Lingers.refl (hs : s.Ready) (hsettled : firstToken s.reader.ahead ≠ .pragma) : s.Lingers s :=
  ⟨.refl hs hsettled, rfl, rfl⟩

/-- A parse that stays at a symbol twice stays there. -/
theorem Lingers.trans (h : s.Lingers t) (h' : t.Lingers u) : s.Lingers u :=
  ⟨h.leads.trans h'.leads, h'.ahead.trans h.ahead, h'.accepted.trans h.accepted⟩

end ParserState

/-- An action does first what it is said to. -/
theorem Action.outset_perform {α : Type} (action : Action α) {s : ParserState} (hs : s.Ready)
    (hsettled : firstToken s.reader.ahead ≠ .pragma) :
    (∀ b, action.outset (firstToken s.reader.ahead).wellFormed = .ends b →
      (action.perform s).1 = b ∧ s.Lingers (action.perform s).2) ∧
    (action.outset (firstToken s.reader.ahead).wellFormed = .rejects →
      0 < (action.perform s).2.reader.reporter.errorCount) := by
  have hleads := action.perform_leads hs hsettled
  have hlingers : action.accepts = false → action.tells s = [] → s.Lingers (action.perform s).2 := fun haccepts htells =>
    ⟨by simpa [htells] using hleads, ahead_perform haccepts hs hsettled, accepted_perform haccepts s⟩
  cases action with
  | lookahead =>
    have hshown := lookahead_of_settled hs hsettled
    exact ⟨fun b hb => ⟨hshown.trans (Outset.ends.inj hb), hlingers rfl rfl⟩, by rintro ⟨⟩⟩
  | qualifies =>
    refine ⟨fun b hb => ?_, fun hrejects => ?_⟩
    · simp only [outset] at hb
      split at hb
      · cases hb
      · next hdot =>
        rw [wellFormed_eq_iff (by simp)] at hdot
        refine ⟨?_, hlingers rfl rfl⟩
        rw [qualifies_of_settled hs hsettled, ← Outset.ends.inj hb]
        simp [hdot]
    · simp only [outset] at hrejects
      split at hrejects <;> cases hrejects
  | enter p | skipped n => exact ⟨fun b _ => ⟨rfl, hlingers rfl rfl⟩, by rintro ⟨⟩⟩
  | build node =>
    have hnode := ((build node).perform_leaves hs).2.2
    exact ⟨fun b hb => ⟨hnode.trans (Outset.ends.inj hb), hlingers rfl rfl⟩, by rintro ⟨⟩⟩
  | reject expected | rejectClosing closing => exact ⟨by rintro _ ⟨⟩, fun _ => errorCount_report_pos s rfl⟩
  | accept | warnNext code | warnAccepted code => exact ⟨by rintro _ ⟨⟩, by rintro ⟨⟩⟩

/-- A run does first what its script is said to do. -/
theorem Script.Advances.outset {body : Rule → Script Node} {refused : Rule → Bool} {limit : Nat} {α : Type}
    {script : Script α} {a : α} {s s' : ParserState} {t : Token}
    (hrefused : ∀ rule, refused rule = true → (body rule).outset refused t = .rejects)
    (h : Advances body limit script s a s') (hs : s.Ready) (hsettled : firstToken s.reader.ahead ≠ .pragma)
    (ht : (firstToken s.reader.ahead).wellFormed = t) :
    (∀ b, script.outset refused t = .ends b → a = b ∧ s.Lingers s') ∧
      (script.outset refused t = .rejects → 0 < s'.reader.reporter.errorCount) := by
  induction h with
  | pure => exact ⟨fun b hb => ⟨Outset.ends.inj hb, .refl hs hsettled⟩, nofun⟩
  | @bind limit α β first next a b s s' s'' hfirst hnext ihfirst ihnext =>
    obtain ⟨hends, hrejects⟩ := ihfirst hs hsettled ht
    rw [Script.outset]
    cases hout : first.outset refused t with
    | ends c =>
      obtain ⟨rfl, hlingers⟩ := hends c hout
      have ht' : (firstToken s'.reader.ahead).wellFormed = t := by rw [hlingers.ahead, ht]
      obtain ⟨hends', hrejects'⟩ := ihnext hlingers.leads.ready hlingers.leads.settled ht'
      refine ⟨fun d hd => ?_, hrejects'⟩
      obtain ⟨hsame, hlingers'⟩ := hends' d hd
      exact ⟨hsame, hlingers.trans hlingers'⟩
    | rejects => exact ⟨nofun, fun _ => (hrejects hout).trans_le hnext.grows.reported⟩
    | goesOn => exact ⟨nofun, nofun⟩
  | @act limit α action s passes passes' =>
    subst ht
    exact action.outset_perform hs hsettled
  | @call limit rule node s s' less hbody ih =>
    rw [Script.outset]
    split
    · next hrule => exact ⟨nofun, fun _ => (ih hs hsettled ht).2 (hrefused rule hrule)⟩
    · exact ⟨nofun, nofun⟩
  | @done limit α a b step s s' hstep ih =>
    obtain ⟨hends, hrejects⟩ := ih hs hsettled ht
    rw [Script.outset]
    cases hout : (step a).outset refused t with
    | ends c =>
      obtain ⟨rfl, hlingers⟩ := hends c hout
      exact ⟨fun d hd => ⟨Outset.ends.inj hd, hlingers⟩, nofun⟩
    | rejects => exact ⟨nofun, fun _ => hrejects hout⟩
    | goesOn => exact ⟨nofun, nofun⟩
  | @again limit α a b c step s s' s'' hstep less hrest ihstep ihrest =>
    obtain ⟨hends, hrejects⟩ := ihstep hs hsettled ht
    rw [Script.outset]
    cases hout : (step a).outset refused t with
    | ends d =>
      obtain ⟨rfl, -⟩ := hends d hout
      exact ⟨nofun, nofun⟩
    | rejects => exact ⟨nofun, fun _ => (hrejects hout).trans_le hrest.grows.reported⟩
    | goesOn => exact ⟨nofun, nofun⟩

end Modula
