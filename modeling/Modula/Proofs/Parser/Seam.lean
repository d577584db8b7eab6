import Modula.Proofs.Parser.Outset

/-!
# Two statements without a semicolon between them

Of two parses side by side, the second one has a semicolon less between two statements (`Seam`). Up to there they do the
same. Where the first one comes to the semicolon, the second one comes to the second statement; what they are in the
midst of ends in the same way in both, because nothing in a statement goes on with either (`Seam.Pauses`). So both come
out of the first statement with the same result, and that is what is shown of scripts here (`Seam.Divides`).
-/

set_option autoImplicit false

namespace Modula

open SymbolReader ParserState

/-! ## The seam -/

/-- A semicolon between two statements, with the symbols after it. It is known of which kind the symbol before it is. -/
structure Seam (ctx : Context) where
  semicolon : Symbol
  after : List Symbol
  /-- The token before the semicolon. -/
  last : Token
  /-- The first symbol of the second statement. -/
  next : Symbol
  token_semicolon : semicolon.token = .semicolon
  head_after : (bare after).head? = some next
  starts_next : (Production.statement.first ctx).contains next.token = true
  last_ne_point : last ≠ .dot
  last_ne_bar : last ≠ .bar
  /-- A name after `RETURN` would be its value. -/
  next_ne_ident : last = .kwReturn → next.token ≠ .ident

/-- Passing pragmas stops at the first symbol that is none, whatever comes after it. -/
theorem withoutPragmas_append {front : List Symbol} (h : bare front ≠ []) (others : List Symbol) :
    withoutPragmas (front ++ others) = withoutPragmas front ++ others := by
  induction front with
  | nil => exact (h rfl).elim
  | cons u front ih =>
    by_cases hu : u.token = .pragma
    · have hrest : bare front ≠ [] := by simpa [bare, hu] using h
      simpa [withoutPragmas, hu] using ih hrest
    · simp [withoutPragmas, hu]

/-- Where there are only pragmas, all are passed. -/
theorem withoutPragmas_append_of_bare {front : List Symbol} (h : bare front = []) (others : List Symbol) :
    withoutPragmas (front ++ others) = withoutPragmas others := by
  induction front with
  | nil => rfl
  | cons u front ih =>
    have hu : u.token = .pragma ∧ bare front = [] := by
      by_cases hu : u.token = .pragma
      · exact ⟨hu, by simpa [bare, hu] using h⟩
      · simp [bare, hu] at h
    simpa [withoutPragmas, hu.1] using ih hu.2

namespace Seam

variable {ctx : Context} (σ : Seam ctx)

/-- What is reported where the semicolon is missing. -/
def report : Diagnostic :=
  { code := .unexpectedToken, position := some σ.next.position, lexeme := some σ.next.lexeme,
    token := some σ.next.token, expected := some (.token .semicolon) }

/-- The number of symbols from the second statement on. -/
def count : Nat := (withoutPragmas σ.after).length

/-- After the semicolon the second statement comes first, but for pragmas. -/
theorem withoutPragmas_after : ∃ others, withoutPragmas σ.after = σ.next :: others := by
  have hhead := σ.head_after
  rw [← bare_withoutPragmas, (bare_of_settled (firstToken_withoutPragmas _)).1] at hhead
  exact List.head?_eq_some_iff.mp hhead

/-- In both parses the same symbols are ahead up to the semicolon, which only the first one has ahead. -/
structure Before (front : List Symbol) (s t : ParserState) : Prop extends s.Beside [] t where
  ahead : s.reader.ahead = front ++ σ.semicolon :: σ.after
  ahead' : t.reader.ahead = front ++ σ.after
  ends : ∃ u ∈ (bare front).getLast?, u.token = σ.last
  accepted : s.accepted = t.accepted

/-- The first parse is at the semicolon, and the second one at the second statement. -/
structure At (s t : ParserState) : Prop extends s.Beside [] t where
  ahead : s.reader.ahead = σ.semicolon :: σ.after
  ahead' : t.reader.ahead = withoutPragmas σ.after
  token_accepted : s.accepted.token = σ.last

/-- Both parses are in the second statement or behind it, and the second one has reported what is missing. -/
structure After (s t : ParserState) : Prop extends s.Resumed [σ.report] σ.count t where
  less : s.remaining < σ.count

/-- Some place up to the seam or behind it, but not there. -/
def Beyond (s t : ParserState) : Prop := (∃ front, σ.Before front s t) ∨ σ.After s t

variable {σ} {front : List Symbol} {s t : ParserState}

/-- Before the seam there is a symbol left that is no pragma. -/
theorem Before.bare_ne_nil (h : σ.Before front s t) : bare front ≠ [] := by
  obtain ⟨u, hu, -⟩ := h.ends
  rintro hnil
  rw [hnil] at hu
  cases hu

/-- Before the seam both parses are at the same symbol. -/
theorem Before.head (h : σ.Before front s t) :
    ∃ u others, front = u :: others ∧ u.token ≠ .pragma ∧ s.reader.next = u ∧ t.reader.next = u := by
  cases front with
  | nil => exact (h.bare_ne_nil rfl).elim
  | cons u others =>
    have hsettled := h.settled
    have hahead := h.ahead
    rw [hahead] at hsettled
    refine ⟨u, others, rfl, hsettled, ?_, ?_⟩
    · rw [h.ready.ends.next_eq, hahead]
      rfl
    · rw [h.ready'.ends.next_eq, h.ahead']
      rfl

/-- An action that accepts nothing does the same in both parses. -/
theorem Before.perform {α : Type} (h : σ.Before front s t) (action : Action α) (haction : action.accepts = false) :
    (action.perform s).1 = (action.perform t).1 ∧ σ.Before front (action.perform s).2 (action.perform t).2 := by
  obtain ⟨u, others, rfl, -, hnext, hnext'⟩ := h.head
  have hbeside := action.perform_beside h.toBeside (fun _ => hnext.trans hnext'.symm) fun _ => h.accepted
  refine ⟨Action.yields_congr haction h.ready h.ready' h.settled h.settled' ?_ fun _ => ?_, hbeside, ?_, ?_, h.ends, ?_⟩
  · rw [h.ahead, h.ahead']
    rfl
  · rw [h.ahead, h.ahead']
    cases others with
    | nil =>
      -- the symbol before the semicolon is no point
      obtain ⟨v, hv, hlast⟩ := h.ends
      have hu : u.token ≠ .dot := by
        by_cases hpragma : u.token = .pragma
        · rw [hpragma]
          simp
        · obtain rfl : u = v := by simpa [bare, hpragma] using hv
          rw [hlast]
          exact σ.last_ne_point
      simp [hu]
    | cons v others => rfl
  · exact (Action.ahead_perform haction h.ready h.settled).trans h.ahead
  · exact (Action.ahead_perform haction h.ready' h.settled').trans h.ahead'
  · rw [Action.accepted_perform haction, Action.accepted_perform haction]
    exact h.accepted

/-- Accepting a symbol leads on, up to the semicolon. -/
theorem Before.accept (h : σ.Before front s t) :
    (Action.accept.perform s).1 = (Action.accept.perform t).1 ∧
      ∃ others, front = s.reader.next :: others ∧ s.reader.next.token ≠ .pragma ∧
        (σ.Before (withoutPragmas others) (Action.accept.perform s).2 (Action.accept.perform t).2 ∨
          bare others = [] ∧ s.reader.next.token = σ.last ∧
            σ.At (Action.accept.perform s).2 (Action.accept.perform t).2) := by
  obtain ⟨u, others, rfl, hu, hnext, hnext'⟩ := h.head
  have hahead := (Action.accept.perform_leaves h.ready).2.1
  have hahead' := (Action.accept.perform_leaves h.ready').2.1
  have hbeside := Action.accept.perform_beside h.toBeside False.elim False.elim
  have haccepted : (Action.accept.perform s).2.accepted = u := (current_read _).trans hnext
  have haccepted' : (Action.accept.perform t).2.accepted = u := (current_read _).trans hnext'
  rw [h.ahead, List.cons_append, List.tail_cons] at hahead
  rw [h.ahead', List.cons_append, List.tail_cons] at hahead'
  obtain ⟨v, hv, hlast⟩ := h.ends
  rw [bare_cons hu, List.getLast?_cons] at hv
  rw [hnext]
  refine ⟨?_, others, rfl, hu, ?_⟩
  · show s.reader.read.current.lexeme = t.reader.read.current.lexeme
    rw [current_read, current_read, hnext, hnext']
  by_cases hnone : bare others = []
  · obtain rfl : u = v := by simpa [hnone] using hv
    refine .inr ⟨hnone, hlast, hbeside, ?_, ?_, by rw [haccepted, hlast]⟩
    · rw [hahead, withoutPragmas_append_of_bare hnone]
      exact withoutPragmas_of_settled (by rw [firstToken_cons, σ.token_semicolon]; simp)
    · rw [hahead', withoutPragmas_append_of_bare hnone]
  · refine .inl ⟨hbeside, ?_, ?_, ⟨v, ?_, hlast⟩, haccepted.trans haccepted'.symm⟩
    · rw [hahead, withoutPragmas_append hnone]
    · rw [hahead', withoutPragmas_append hnone]
    · rw [bare_withoutPragmas]
      obtain ⟨w, hw⟩ := Option.ne_none_iff_exists'.mp (mt List.getLast?_eq_none_iff.mp hnone)
      rw [hw] at hv ⊢
      exact hv

end Seam

/-! ## At the seam -/

/-- The tokens that come first at a seam: the semicolon, and those that statements start with. -/
def Token.ofSeams : List Token :=
  [.semicolon, .ident, .kwReturn, .kwWith, .kwIf, .kwCase, .kwLoop, .kwWhile, .kwRepeat, .kwFor, .kwExit]

/-- What a statement starts with may come first at a seam. -/
theorem Token.mem_ofSeams {ctx : Context} {t : Token} (h : (Production.statement.first ctx).contains t = true) :
    t ∈ ofSeams := by
  cases t <;> simp [Production.first] at h <;> decide

/-- The rules that reject a semicolon. -/
def Rule.refusesSemicolon : Rule → Bool
  | .expression | .statementSequence => true
  | _ => false

/-- The rules that are said to reject a semicolon do so. -/
theorem Rule.outset_body {ctx : Context} {rule : Rule} (h : rule.refusesSemicolon = true) :
    (rule.body ctx).outset refusesSemicolon .semicolon = .rejects := by
  cases rule with
  | expression | statementSequence =>
    simp [body, Script.expression, Script.simpleExpression, Script.signedTerm, Script.term, Script.simpleTerm,
      Script.factor, Script.literal?, Production.first, Script.statementSequence, Production.follow, Script.statement]
  | typeExpression | variantFields | block => cases h

namespace Script

variable {α β : Type}

/-- A script that rejects a semicolon. -/
def Refuses (script : Script α) : Prop := script.outset Rule.refusesSemicolon .semicolon = .rejects

/-- So calling an expression rejects it. -/
theorem refuses_expression : (call .expression).Refuses := rfl

/-- So does calling a sequence of statements. -/
theorem refuses_statementSequence : (call .statementSequence).Refuses := rfl

/-- A script that takes neither a semicolon nor the start of a statement, but ends with a result. -/
def Idles (script : Script α) (a : α) : Prop := ∀ refused, ∀ t ∈ Token.ofSeams, script.outset refused t = .ends a

/-- A script rejects what its first part does. -/
theorem Refuses.bind {first : Script α} {next : α → Script β} (h : first.Refuses) : (first >>= next).Refuses := by
  rw [Refuses, outset_bind, show first.outset _ _ = _ from h, Outset.bind_rejects]

end Script

namespace Seam

variable {ctx : Context} (σ : Seam ctx) {α β : Type}

/-- A script that ends in the same way at the semicolon and at the second statement, with a result among those at which
it may stop, unless it rejects the semicolon. -/
def Pauses (script : Script α) (stops : α → Prop) : Prop :=
  script.Refuses ∨ ∃ a, stops a ∧ script.outset Rule.refusesSemicolon .semicolon = .ends a ∧
    script.outset (fun _ => false) σ.next.token = .ends a

variable {σ} {script : Script α} {stops : α → Prop} {s s' t t' : ParserState} {a b : α} {limit limit' : Nat}

namespace Pauses

/-- A script that rejects a semicolon pauses at the seam for want of errors. -/
theorem refuses (h : script.Refuses) : σ.Pauses script stops := .inl h

/-- A script that takes nothing at a seam pauses there. -/
theorem idles (h : script.Idles a) (hstops : stops a) : σ.Pauses script stops :=
  .inr ⟨a, hstops, h _ _ (by decide), h _ _ (Token.mem_ofSeams σ.starts_next)⟩

variable {first : Script α} {next : α → Script β} {stops' : β → Prop}

/-- Two scripts pause at the seam if both do. -/
theorem bind (hfirst : σ.Pauses first stops) (hnext : ∀ a, stops a → σ.Pauses (next a) stops') :
    σ.Pauses (first >>= next) stops' := by
  simp only [Pauses, Script.Refuses, Script.outset_bind] at hnext ⊢
  obtain hrefuses | ⟨a, hstops, ha, ha'⟩ := hfirst
  · rw [hrefuses]
    exact .inl rfl
  · rw [ha, ha']
    exact hnext a hstops

/-- A script that idles lets the next one decide. -/
theorem bind_idles (hfirst : first.Idles a) (hnext : σ.Pauses (next a) stops') : σ.Pauses (first >>= next) stops' := by
  refine bind (idles hfirst (Eq.refl a)) ?_
  rintro _ rfl
  exact hnext

end Pauses

/-- Parses that stay at their symbols stay at the seam. -/
theorem At.lingers (h : σ.At s t) (hs : s.Lingers s') (ht : t.Lingers t') : σ.At s' t' :=
  ⟨h.toBeside.step_same hs.leads ht.leads, hs.ahead.trans h.ahead, ht.ahead.trans h.ahead',
    by rw [hs.accepted, h.token_accepted]⟩

/-- At the seam one parse sees the semicolon, and the other one the statement. -/
theorem At.first (h : σ.At s t) : (firstToken s.reader.ahead).wellFormed = .semicolon ∧
    (firstToken t.reader.ahead).wellFormed = σ.next.token := by
  obtain ⟨others, hothers⟩ := σ.withoutPragmas_after
  refine ⟨?_, ?_⟩
  · rw [h.ahead, firstToken_cons, σ.token_semicolon]
    rfl
  · have hstarts := σ.starts_next
    rw [h.ahead', hothers, firstToken_cons]
    cases hnext : σ.next.token <;> simp [hnext, Production.first] at hstarts ⊢ <;> rfl

/-- At the seam, a script that pauses yields the same in both parses and stays there. -/
theorem At.run (h : σ.At s t) (hpauses : σ.Pauses script stops)
    (hs : Script.Advances (Rule.body ctx) limit script s a s') (ht : Script.Advances (Rule.body ctx) limit' script t b t')
    (hzero : s'.reader.reporter.errorCount = 0) : a = b ∧ σ.At s' t' ∧ stops a := by
  obtain ⟨hfirst, hfirst'⟩ := h.first
  obtain ⟨hends, hrejects⟩ := hs.outset (fun _ => Rule.outset_body) h.ready h.settled hfirst
  have hnone : ∀ rule : Rule, false = true → (rule.body ctx).outset (fun _ => false) σ.next.token = .rejects :=
    fun _ => nofun
  obtain ⟨hends', -⟩ := ht.outset hnone h.ready' h.settled' hfirst'
  obtain hrefuses | ⟨c, hstops, hc, hc'⟩ := hpauses
  · exact absurd (hrejects hrefuses) (by omega)
  · obtain ⟨rfl, hlingers⟩ := hends c hc
    obtain ⟨hb, hlingers'⟩ := hends' a hc'
    exact ⟨hb.symm, h.lingers hlingers hlingers', hstops⟩

/-- Behind the seam, every script yields the same in both parses. -/
theorem After.run (h : σ.After s t) (hs : Script.Advances (Rule.body ctx) limit script s a s')
    (ht : Script.Advances (Rule.body ctx) limit' script t b t') : a = b ∧ σ.After s' t' := by
  obtain ⟨hsame, hresumed, hless⟩ := hs.rejoined ht ⟨h.toResumed, h.less⟩
  exact ⟨hsame, hresumed, hless⟩

end Seam

end Modula
