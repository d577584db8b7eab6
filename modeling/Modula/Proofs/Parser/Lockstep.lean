import Modula.Proofs.Parser.Careful
import Modula.Proofs.Parser.Reports
import Modula.Proofs.Parser.Settled
import Modula.Proofs.Scan.Places

/-!
# Two parses side by side

Of a symbol ahead a parse uses the token and the lexeme, and of a point whether an identifier stands right after it; of
pragmas it uses nothing else. A parse without errors asks for that identifier only behind a qualified identifier
(`Watch`). Two parses that see the same in this way (`sight`) go on in the same way: every action yields the same in both
(`Action.perform_seesAlike`). If their symbols bring the same faults, their reports differ in nothing but places
(`Action.perform_alike`).
-/

set_option autoImplicit false

namespace Modula

open SymbolReader ParserState

/-! ## What a parse sees -/

/-- How a parse watches the points ahead. It may ask for the identifier right after any point, or after those only that
go on with a qualified identifier. -/
inductive Watch
  | always
  | names (trail : Trail)

namespace Watch

/-- Whether the parse may ask for the identifier if a point comes next. -/
def asks : Watch → Bool
  | always => true
  | names trail => trail.naming

/-- The watch once an action has been performed that had these symbols ahead. -/
def after {α : Type} (w : Watch) (action : Action α) (ahead : List Symbol) : Watch :=
  match w with
  | always => always
  | names trail =>
    if action.accepts then names (trail.after (firstToken ahead).wellFormed (firstToken ahead.tail).wellFormed)
    else names trail

/-- The watch once the first symbol ahead has been accepted. -/
abbrev pass (w : Watch) (ahead : List Symbol) : Watch := w.after .accept ahead

/-- A watch over all points stays one. -/
@[simp] theorem after_always {α : Type} (action : Action α) (ahead : List Symbol) :
    always.after action ahead = always := rfl

/-- Only accepting a symbol changes a watch. -/
theorem after_of_not_accepts {α : Type} (w : Watch) {action : Action α} (h : action.accepts = false)
    (ahead : List Symbol) : w.after action ahead = w := by
  cases w with
  | always => rfl
  | names trail => simp [after, h]

/-- Of what comes after a symbol, the watch depends on no more than the parse may ask for. -/
theorem pass_congr {w : Watch} {s s' : Symbol} {others others' : List Symbol} (htoken : s.token = s'.token)
    (hqualifies : (w.asks = true ∧ s.token = .dot ∧ firstToken others = .ident) ↔
      (w.asks = true ∧ s'.token = .dot ∧ firstToken others' = .ident)) :
    w.pass (s :: others) = w.pass (s' :: others') := by
  cases w with
  | always => rfl
  | names trail =>
    have hasks : (names trail).asks = trail.naming := rfl
    refine congrArg names (Trail.ext (congrArg Token.wellFormed htoken) (Bool.eq_iff_iff.mpr ?_))
    simp only [Trail.naming_after, firstToken_cons, List.tail_cons, htoken]
    refine or_congr_right ?_
    rw [wellFormed_eq_iff (by simp), wellFormed_eq_iff (by simp), wellFormed_eq_iff (by simp), ← hasks]
    rw [htoken] at hqualifies
    tauto

end Watch

/-- What a parse uses of a symbol. -/
structure Sight where
  token : Token
  lexeme : String
  /-- Whether the symbol is a point with an identifier right after it, as far as that is asked. -/
  qualifies : Bool
deriving DecidableEq

/-- What a parse uses of the symbols ahead. -/
def sight (w : Watch) : List Symbol → List Sight
  | [] => []
  | s :: others =>
    if s.token = .pragma then sight w others
    else ⟨s.token, s.lexeme, w.asks = true ∧ s.token = .dot ∧ firstToken others = .ident⟩ ::
      sight (w.pass (s :: others)) others

/-- A symbol that is no pragma is seen. -/
theorem sight_cons (w : Watch) {s : Symbol} (hs : s.token ≠ .pragma) (others : List Symbol) :
    sight w (s :: others) =
      ⟨s.token, s.lexeme, w.asks = true ∧ s.token = .dot ∧ firstToken others = .ident⟩ ::
        sight (w.pass (s :: others)) others := by
  rw [sight, if_neg hs]

/-- Passing pragmas does not change what is seen. -/
theorem sight_withoutPragmas (w : Watch) (ahead : List Symbol) : sight w (withoutPragmas ahead) = sight w ahead := by
  induction ahead with
  | nil => rfl
  | cons s others ih =>
    by_cases hs : s.token = .pragma
    · have hskips : withoutPragmas (s :: others) = withoutPragmas others := by simp [withoutPragmas, hs]
      rw [hskips, ih, sight, if_pos hs]
    · have hstays : withoutPragmas (s :: others) = s :: others := by simp [withoutPragmas, hs]
      rw [hstays]

/-- Two rows of symbols that start with no pragma and look the same have the same first symbol, or none. -/
theorem head_of_sight {w : Watch} {ahead ahead' : List Symbol} (h : firstToken ahead ≠ .pragma)
    (h' : firstToken ahead' ≠ .pragma) (hsight : sight w ahead = sight w ahead') :
    ahead = [] ∧ ahead' = [] ∨ ∃ s s' others others', ahead = s :: others ∧ ahead' = s' :: others' ∧
      s.token = s'.token ∧ s.lexeme = s'.lexeme ∧
      (w.asks = true → (s.token = .dot ∧ firstToken others = .ident ↔ s'.token = .dot ∧ firstToken others' = .ident)) ∧
      sight (w.pass ahead) others = sight (w.pass ahead) others' := by
  cases ahead with
  | nil =>
    cases ahead' with
    | nil => exact .inl ⟨rfl, rfl⟩
    | cons s' others' =>
      have hs' : s'.token ≠ .pragma := h'
      rw [sight_cons w hs'] at hsight
      cases hsight
  | cons s others =>
    have hs : s.token ≠ .pragma := h
    cases ahead' with
    | nil =>
      rw [sight_cons w hs] at hsight
      cases hsight
    | cons s' others' =>
      have hs' : s'.token ≠ .pragma := h'
      rw [sight_cons w hs, sight_cons w hs', List.cons.injEq, Sight.mk.injEq] at hsight
      obtain ⟨⟨htoken, hlexeme, hqualifies⟩, hothers⟩ := hsight
      have hqualifies := decide_eq_decide.mp hqualifies
      refine .inr ⟨s, s', others, others', rfl, rfl, htoken, hlexeme, fun hasks => ?_, ?_⟩
      · simpa [hasks] using hqualifies
      · rwa [← Watch.pass_congr htoken hqualifies] at hothers

/-- Where it is asked whether a name goes on, it does in both rows or in neither. -/
theorem qualifies_of_sight {w : Watch} {ahead ahead' : List Symbol} (h : firstToken ahead ≠ .pragma)
    (h' : firstToken ahead' ≠ .pragma) (hsight : sight w ahead = sight w ahead') (hasks : w.asks = true) :
    firstToken ahead = .dot ∧ firstToken ahead.tail = .ident ↔
      firstToken ahead' = .dot ∧ firstToken ahead'.tail = .ident := by
  obtain ⟨rfl, rfl⟩ | ⟨s, s', others, others', rfl, rfl, -, -, hqualifies, -⟩ := head_of_sight h h' hsight
  · rfl
  · exact hqualifies hasks

/-- Past the first symbols the rows still look the same. -/
theorem sight_tail {w : Watch} {ahead ahead' : List Symbol} (h : firstToken ahead ≠ .pragma)
    (h' : firstToken ahead' ≠ .pragma) (hsight : sight w ahead = sight w ahead') :
    sight (w.pass ahead) ahead.tail = sight (w.pass ahead) ahead'.tail := by
  obtain ⟨rfl, rfl⟩ | ⟨s, s', others, others', rfl, rfl, -, -, -, hothers⟩ := head_of_sight h h' hsight
  · rfl
  · exact hothers

/-! ## Reports without places -/

/-- A view of diagnostics that does not show their source lines. -/
def Diagnostic.HidesLines (view : Diagnostic → Diagnostic) : Prop :=
  ∀ (d : Diagnostic) (line : Option String), view { d with sourceLine := line } = view d

/-- A diagnostic without its place has no source line either. -/
theorem Diagnostic.hidesLines_unplaced : HidesLines unplaced := fun _ _ => rfl

section

variable {view : Diagnostic → Diagnostic} (hview : Diagnostic.HidesLines view)

include hview

/-- A view of source lines aside, emitted diagnostics come after those that were there. -/
theorem Reporter.diagnostics_emitAll (r : Reporter) (ds : List Diagnostic) :
    (r.emitAll ds).diagnostics.map view = r.diagnostics.map view ++ ds.map view := by
  rw [diagnostics_emitAll_eq, List.map_append, List.map_map]
  congr 1
  exact List.map_congr_left fun d _ => hview d _

end

namespace SymbolReader

/-- What has been reported and what will be of the symbols that have not come into view, as a view shows it. -/
def reportsIn (view : Diagnostic → Diagnostic) (r : SymbolReader) : List Diagnostic :=
  r.reporter.diagnostics.map view ++ r.unseen.flatMap fun s => s.faults.map view

/-- What has been reported and what will be of the symbols that have not come into view, without places. -/
abbrev reports (r : SymbolReader) : List Diagnostic := r.reportsIn Diagnostic.unplaced

section

variable {view : Diagnostic → Diagnostic} (hview : Diagnostic.HidesLines view) (r : SymbolReader)

include hview

/-- A symbol that comes into view brings the reports that were to come. -/
theorem reportsIn_scan : r.scan.2.reportsIn view = r.reportsIn view := by
  rw [scan_eq]
  unfold reportsIn
  rw [Reporter.diagnostics_emitAll hview]
  unfold upcoming
  cases r.unseen <;> simp

/-- So asking for the second symbol changes nothing of the reports. -/
theorem reportsIn_peekSecond : r.peekSecond.2.reportsIn view = r.reportsIn view := by
  obtain hpeek | ⟨-, hpeek⟩ := r.peekSecond_cases
  · rw [hpeek]
  · rw [hpeek]
    exact reportsIn_scan hview r

/-- Nor does reading a symbol. -/
theorem reportsIn_read : r.read.reportsIn view = r.reportsIn view := by
  rw [read_eq]
  exact reportsIn_peekSecond hview r

/-- Nor does passing pragmas. -/
theorem reportsIn_skipPragmas : r.skipPragmas.reportsIn view = r.reportsIn view :=
  keeps_skipPragmas (P := fun r' => r'.reportsIn view = r.reportsIn view)
    (fun r' h => (reportsIn_read hview r').trans h) rfl

/-- A report is one more, whatever has not come into view. -/
theorem reportsIn_report (d : Diagnostic) : ((r.report d).reportsIn view).Perm (view d :: r.reportsIn view) := by
  have hreported : (r.report d).reportsIn view = r.reporter.diagnostics.map view ++ [view d] ++
      r.unseen.flatMap fun s => s.faults.map view := by
    rw [← List.map_singleton, ← Reporter.diagnostics_emitAll hview]
    rfl
  rw [hreported, List.append_assoc]
  exact List.perm_middle

end

/-- So reading a symbol changes nothing of the reports without places. -/
theorem reports_read (r : SymbolReader) : r.read.reports = r.reports := reportsIn_read Diagnostic.hidesLines_unplaced r

/-- Nor does passing pragmas. -/
theorem reports_skipPragmas (r : SymbolReader) : r.skipPragmas.reports = r.reports :=
  reportsIn_skipPragmas Diagnostic.hidesLines_unplaced r

end SymbolReader

/-! ## What actions report -/

namespace Action

variable {α : Type}

/-- What an action reports beyond what symbols bring with them. -/
def tells : Action α → ParserState → List Diagnostic
  | .reject expected, s =>
    [{ code := .unexpectedToken, position := some s.reader.next.position, lexeme := some s.reader.next.lexeme,
       token := some s.reader.next.token, expected := some expected }]
  | .warnNext code, s => if s.tolerant then [] else [.atPosition code s.reader.next.position]
  | .warnAccepted code, s => if s.tolerant then [] else [.atPosition code s.accepted.position]
  | .rejectClosing closing, s => [.ofLexeme .closingIdentMismatch s.accepted.position closing]
  | _, _ => []

/-- The reports of an action, without places. -/
def reports : Action α → ParserState → List Diagnostic
  | .reject expected, s =>
    [{ code := .unexpectedToken, lexeme := some s.reader.next.lexeme, token := some s.reader.next.token,
       expected := some expected }]
  | .warnNext code, s | .warnAccepted code, s => if s.tolerant then [] else [{ code := code }]
  | .rejectClosing closing, _ => [{ code := .closingIdentMismatch, lexeme := some closing }]
  | _, _ => []

/-- Without places, what an action tells are its reports. -/
theorem map_tells (action : Action α) (s : ParserState) : (action.tells s).map Diagnostic.unplaced = action.reports s := by
  cases action with
  | warnNext code | warnAccepted code =>
    simp only [tells, reports]
    split <;> rfl
  | _ => rfl

/-- No action changes the last symbol of all. -/
theorem perform_last (action : Action α) (s : ParserState) : (action.perform s).2.reader.last = s.reader.last :=
  action.keeps_perform (P := fun r => r.last = s.reader.last) (fun r h => (last_read r).trans h)
    (fun r h => (last_peekSecond r).trans h) (fun _ _ _ h => h) (fun _ _ h => h) rfl

/-- Nor does any change whether a parse is tolerant. -/
theorem perform_tolerant (action : Action α) (s : ParserState) : (action.perform s).2.tolerant = s.tolerant := by
  cases action with
  | build node =>
    cases node with
    | ok node => rfl
    | error e =>
      simp only [perform]
      split
      · rfl
      · split <;> rfl
  | qualifies | enter p | warnNext code | warnAccepted code | skipped n =>
    simp only [perform, warn]
    split <;> rfl
  | lookahead | accept | reject expected | rejectClosing closing => rfl

/-- Beyond what it tells, an action brings nothing but what symbols bring with them. -/
theorem perform_reportsIn {view : Diagnostic → Diagnostic} (hview : Diagnostic.HidesLines view) (action : Action α)
    (s : ParserState) :
    ((action.perform s).2.reader.reportsIn view).Perm ((action.tells s).map view ++ s.reader.reportsIn view) := by
  have hsettle : s.settle.reader.reportsIn view = s.reader.reportsIn view := reportsIn_skipPragmas hview _
  cases action with
  | lookahead => exact .of_eq hsettle
  | qualifies =>
    simp only [perform]
    split
    · exact .of_eq ((reportsIn_peekSecond hview _).trans hsettle)
    · exact .of_eq hsettle
  | accept => exact .of_eq ((reportsIn_skipPragmas hview _).trans (reportsIn_read hview _))
  | enter p =>
    simp only [perform]
    split
    · exact .of_eq hsettle
    · exact .refl _
  | reject expected | rejectClosing closing => exact reportsIn_report hview _ _
  | warnNext code | warnAccepted code =>
    simp only [perform, warn, tells]
    split
    · exact .refl _
    · exact reportsIn_report hview _ _
  | skipped n =>
    simp only [perform]
    split <;> exact .refl _
  | build node =>
    cases node with
    | ok node => exact .refl _
    | error e =>
      simp only [perform]
      split
      · exact .refl _
      · split <;> exact .refl _

/-- Without places, an action adds its own reports to those that were to come. -/
theorem perform_reports (action : Action α) (s : ParserState) :
    (action.perform s).2.reader.reports.Perm (action.reports s ++ s.reader.reports) := by
  rw [← map_tells]
  exact action.perform_reportsIn Diagnostic.hidesLines_unplaced s

end Action

/-! ## Actions in both parses -/

/-- Two settled states in which a parse sees the same. -/
structure ParserState.SeesAlike (w : Watch) (s t : ParserState) : Prop where
  ready : s.Ready
  ready' : t.Ready
  settled : firstToken s.reader.ahead ≠ .pragma
  settled' : firstToken t.reader.ahead ≠ .pragma
  sight : sight w s.reader.ahead = sight w t.reader.ahead
  last : s.reader.last.lexeme = t.reader.last.lexeme
  tolerant : s.tolerant = t.tolerant

/-- The next symbol is the same, but for its place. -/
theorem ParserState.SeesAlike.next {w : Watch} {s t : ParserState} (h : s.SeesAlike w t) :
    s.reader.next.token = t.reader.next.token ∧ s.reader.next.lexeme = t.reader.next.lexeme := by
  rw [h.ready.ends.next_eq, h.ready'.ends.next_eq]
  obtain ⟨hnil, hnil'⟩ | ⟨u, u', others, others', hcons, hcons', htoken, hlexeme, -, -⟩ :=
    head_of_sight h.settled h.settled' h.sight
  · rw [hnil, hnil']
    exact ⟨by simp [h.ready.ends.last, h.ready'.ends.last], h.last⟩
  · rw [hcons, hcons']
    exact ⟨htoken, hlexeme⟩

/-- Two settled states in which a parse sees the same, with the same reports. -/
structure ParserState.Alike (w : Watch) (s t : ParserState) : Prop extends s.SeesAlike w t where
  reports : s.reader.reports.Perm t.reader.reports

namespace Action

variable {α : Type} {w : Watch} {s t : ParserState}

/-- An action reports the same in states in which a parse sees the same. -/
theorem reports_seesAlike (action : Action α) (h : s.SeesAlike w t) : action.reports s = action.reports t := by
  cases action with
  | reject expected => simp only [reports, h.next.1, h.next.2]
  | warnNext code | warnAccepted code => simp only [reports, h.tolerant]
  | _ => rfl

/-- An action yields the same in both states, if it asks for an identifier only where that is watched, and leaves both in
states in which a parse sees the same. -/
theorem perform_seesAlike (action : Action α) (h : s.SeesAlike w t) (hasks : action.AsksQualifies → w.asks = true) :
    (action.perform s).1 = (action.perform t).1 ∧
      (action.perform s).2.SeesAlike (w.after action s.reader.ahead) (action.perform t).2 := by
  obtain ⟨hready, hleaves⟩ := action.perform_leaves h.ready
  obtain ⟨hready', hleaves'⟩ := action.perform_leaves h.ready'
  have hsettled := action.settled_perform h.ready h.settled
  have hsettled' := action.settled_perform h.ready' h.settled'
  have hlast : (action.perform s).2.reader.last.lexeme = (action.perform t).2.reader.last.lexeme := by
    rw [action.perform_last s, action.perform_last t, h.last]
  have htolerant : (action.perform s).2.tolerant = (action.perform t).2.tolerant := by
    rw [action.perform_tolerant s, action.perform_tolerant t, h.tolerant]
  cases haccepts : action.accepts with
  | false =>
    have hsight : Modula.sight (w.after action s.reader.ahead) (action.perform s).2.reader.ahead =
        Modula.sight (w.after action s.reader.ahead) (action.perform t).2.reader.ahead := by
      rw [w.after_of_not_accepts haccepts, ahead_perform haccepts h.ready h.settled,
        ahead_perform haccepts h.ready' h.settled', h.sight]
    refine ⟨yields_congr haccepts h.ready h.ready' h.settled h.settled' ?_ fun hqualifies => ?_,
      hready, hready', hsettled, hsettled', hsight, hlast, htolerant⟩
    · rw [← h.ready.ends.next_token, ← h.ready'.ends.next_token, h.next.1]
    · exact qualifies_of_sight h.settled h.settled' h.sight (hasks hqualifies)
  | true =>
    cases action with
    | accept =>
      have hlexeme : (accept.perform s).1 = s.reader.next.lexeme := congrArg Symbol.lexeme (current_read _)
      have hlexeme' : (accept.perform t).1 = t.reader.next.lexeme := congrArg Symbol.lexeme (current_read _)
      refine ⟨by rw [hlexeme, hlexeme', h.next.2], hready, hready', hsettled, hsettled', ?_, hlast, htolerant⟩
      rw [hleaves.1, hleaves'.1, sight_withoutPragmas, sight_withoutPragmas]
      exact sight_tail h.settled h.settled' h.sight
    | _ => cases haccepts

/-- If the reports were the same too, they still are. -/
theorem perform_alike (action : Action α) (h : s.Alike w t) (hasks : action.AsksQualifies → w.asks = true) :
    (action.perform s).1 = (action.perform t).1 ∧
      (action.perform s).2.Alike (w.after action s.reader.ahead) (action.perform t).2 := by
  obtain ⟨hyields, hsees⟩ := action.perform_seesAlike h.toSeesAlike hasks
  refine ⟨hyields, hsees, (action.perform_reports s).trans (.trans ?_ (action.perform_reports t).symm)⟩
  rw [action.reports_seesAlike h.toSeesAlike]
  exact h.reports.append_left _

end Action

/-! ## Runs side by side -/

namespace Script

/-- A view that shows nothing. -/
def blind : Abstraction Unit where
  act _ _ Q := ∀ a, Q a ()
  call _ _ Q := ∀ n, Q n ()
  progress _ _ := True
  act_mono hPQ h a := hPQ a () (h a)
  call_mono hPQ h n := hPQ n () (h n)

/-- Of what a script yields nothing is known that is not so of everything. -/
theorem ensures_blind {α : Type} (script : Script α) {Q : α → Unit → Prop} (hQ : ∀ a, Q a ()) :
    script.Ensures blind () Q := by
  induction script with
  | pure a => exact hQ a
  | bind first next ihfirst ihnext => exact ihfirst fun a => ihnext a hQ
  | act action | call rule => exact hQ
  | loop init step ih =>
    refine ⟨fun _ _ => True, trivial, fun a _ _ => ih a ?_⟩
    rintro (b | b)
    · exact hQ b
    · exact ⟨trivial, trivial⟩

/-- Two runs of a script yield the same and keep a relation between their states that makes every action yield the same
and that every action keeps. It is enough if actions do so up to where the first run ends. -/
theorem Advances.lockstep_until {R : ParserState → ParserState → Prop} {G : ParserState → Prop}
    (hback : ∀ {γ : Type} (action : Action γ) (s : ParserState), G (action.perform s).2 → G s)
    (hact : ∀ {γ : Type} (action : Action γ) {s t : ParserState}, R s t → G (action.perform s).2 →
      (action.perform s).1 = (action.perform t).1 ∧ R (action.perform s).2 (action.perform t).2)
    {body : Rule → Script Node} {limit limit' : Nat} {α : Type} {script : Script α} {a b : α} {s s' t t' : ParserState}
    (h : Advances body limit script s a s') (h' : Advances body limit' script t b t') (hst : R s t) (hend : G s') :
    a = b ∧ R s' t' := by
  -- a run is lost once it is past what is looked at, and it stays so
  have hlost : ∀ {γ : Type} (action : Action γ) (s : ParserState), ¬G s → ¬G (action.perform s).2 :=
    fun action s => mt (hback action s)
  have hfollows : ∀ {γ : Type} (action : Action γ) (s t : ParserState) (_ : Unit) (Q : γ → Unit → Prop), R s t →
      (∀ a, Q a ()) → ¬G (action.perform s).2 ∨ (action.perform s).1 = (action.perform t).1 ∧
        ∃ _ : Unit, R (action.perform s).2 (action.perform t).2 ∧ Q (action.perform s).1 () := by
    intro γ action s t _ Q hst hQ
    refine (Classical.em (G (action.perform s).2)).symm.imp_right fun hbefore => ?_
    obtain ⟨hsame, hkept⟩ := hact action hst hbefore
    exact ⟨hsame, (), hkept, hQ _⟩
  obtain hpast | ⟨hsame, -, hkept, -⟩ := Ensures.lockstep (A := blind) (R := fun s t _ => R s t) hfollows hlost
    (fun rule _ _ => ensures_blind (body rule)) h h' hst (ensures_blind script (Q := fun _ _ => True) fun _ => trivial)
  · exact (hpast hend).elim
  · exact ⟨hsame, hkept⟩

end Script

/-- Two runs of a script yield the same and keep a relation between their states that makes every action yield the same
and that every action keeps. -/
theorem Script.Advances.lockstep {R : ParserState → ParserState → Prop}
    (hact : ∀ {γ : Type} (action : Action γ) {s t : ParserState}, R s t →
      (action.perform s).1 = (action.perform t).1 ∧ R (action.perform s).2 (action.perform t).2)
    {body : Rule → Script Node} {limit limit' : Nat} {α : Type} {script : Script α} {a b : α} {s s' t t' : ParserState}
    (h : Advances body limit script s a s') (h' : Advances body limit' script t b t') (hst : R s t) :
    a = b ∧ R s' t' :=
  h.lockstep_until (G := fun _ => True) (fun _ _ _ => trivial) (fun action _ _ hst _ => hact action hst) h' hst trivial

end Modula
