import Modula.Proofs.Parser.StatementDivisions

/-!
# Over a missing semicolon

At the seam, the parser accepts the semicolon where there is one, and reports where there is none that it is missing. In
both cases it goes on with the second statement (`Seam.At.crosses`), and so a sequence of statements gets over the seam
(`Seam.divides_statementSequence`). With that, all that was said of statements as parts of each other holds without
conditions (`Seam.recurs`).
-/

set_option autoImplicit false

namespace Modula

open SymbolReader ParserState

namespace Seam

variable {ctx : Context} {σ : Seam ctx} {limit : Nat} {α β γ : Type} {stops : γ → Prop} {s s' t t' : ParserState}

/-- A round of a loop gets over the seam, if it leads on at all. -/
def Crosses (σ : Seam ctx) (limit : Nat) (step : Script (ForInStep α)) : Prop :=
  ∀ ⦃s s' t t' : ParserState⦄ ⦃a b : ForInStep α⦄ ⦃limit' : Nat⦄,
    Script.Advances (Rule.body ctx) limit step s a s' → Script.Advances (Rule.body ctx) limit' step t b t' →
      s'.reader.reporter.errorCount = 0 → σ.At s t →
        ∃ c, a = .yield c ∧ b = .yield c ∧ (t'.remaining < t.remaining → σ.After s' t')

/-- Looking ahead at the seam shows a semicolon in one parse and the second statement in the other. -/
theorem At.lookahead (h : σ.At s t) : (Action.lookahead.perform s).1 = .semicolon ∧
    (Action.lookahead.perform t).1 = σ.next.token ∧
      σ.At (Action.lookahead.perform s).2 (Action.lookahead.perform t).2 := by
  obtain ⟨hfirst, hfirst'⟩ := h.first
  obtain ⟨hsame, hlingers⟩ := (Action.lookahead.outset_perform h.ready h.settled).1 _ rfl
  obtain ⟨hsame', hlingers'⟩ := (Action.lookahead.outset_perform h.ready' h.settled').1 _ rfl
  exact ⟨hsame.trans hfirst, hsame'.trans hfirst', h.lingers hlingers hlingers'⟩

/-- The second statement has at least one symbol. -/
theorem count_pos : 0 < σ.count := by
  obtain ⟨others, hothers⟩ := σ.withoutPragmas_after
  rw [count, hothers]
  exact Nat.succ_pos _

/-- Accepting the semicolon in one parse, and reporting in the other that it is missing, leads to the same symbols. -/
theorem At.crosses (h : σ.At s t) :
    (Action.lookahead.perform (Action.accept.perform s).2).1 = σ.next.token ∧
      (Action.lookahead.perform (Action.accept.perform s).2).2.Resumed [σ.report] σ.count
        (Action.perform (.reject (.token .semicolon)) t).2 := by
  obtain ⟨others, hothers⟩ := σ.withoutPragmas_after
  have hnext : t.reader.next = σ.next := by
    rw [h.ready'.ends.next_eq, h.ahead', hothers]
    rfl
  have hleads : s.Leads [] (Action.accept.perform s).2 := Action.accept.perform_leads h.ready h.settled
  have hahead : (Action.accept.perform s).2.reader.ahead = withoutPragmas σ.after := by
    rw [(Action.accept.perform_leaves h.ready).2.1, h.ahead, List.tail_cons]
  obtain ⟨hlook, hlingers⟩ := (Action.lookahead.outset_perform hleads.ready hleads.settled).1 _ rfl
  have hfirst : (firstToken (Action.accept.perform s).2.reader.ahead).wellFormed = σ.next.token := by
    rw [hahead, ← h.ahead', h.first.2]
  have hreported : t.Leads ([σ.report] ++ []) (Action.perform (.reject (.token .semicolon)) t).2 := by
    have hperform := (Action.reject (.token .semicolon)).perform_leads h.ready' h.settled'
    simp only [Action.tells, hnext] at hperform
    exact hperform
  have hbeside := h.toBeside.step (hleads.trans hlingers.leads) hreported
  have hahead' : (Action.lookahead.perform (Action.accept.perform s).2).2.reader.ahead = withoutPragmas σ.after :=
    hlingers.ahead.trans hahead
  have hremaining : (Action.lookahead.perform (Action.accept.perform s).2).2.remaining = σ.count :=
    congrArg List.length hahead'
  exact ⟨hlook.trans hfirst, hbeside, hahead'.trans h.ahead'.symm, hremaining.le, fun hless => by omega⟩

/-- A round over statements gets over the seam: with the semicolon it is accepted, without it it is reported, and the
second statement is the same in both. -/
theorem crosses_statements {statements : List Node} : σ.Crosses limit (do
    let t ← Script.lookahead
    if t = .semicolon then
      Script.skip
      if (Production.statementSequence.follow ctx).contains (← Script.lookahead) then
        Script.act (.warnAccepted .semicolonAfterStatements)
        return .done statements
      return .yield ((← Script.statement ctx) :: statements)
    if (Production.statement.first ctx).contains t then
      Script.act (.reject (.token .semicolon))
      return .yield ((← Script.statement ctx) :: statements)
    return .done statements) := by
  have hne : ∀ t ∈ Token.ofSeams, (Production.statement.first ctx).contains t = true →
      t ≠ .semicolon ∧ (Production.statementSequence.follow ctx).contains t = false := by
    simp [Token.ofSeams, Production.first, Production.follow]
  obtain ⟨hnext_ne, hfollow⟩ := hne _ (Token.mem_ofSeams σ.starts_next) σ.starts_next
  intro s s' t t' a b limit' hs ht hzero hat
  obtain ⟨hsemicolon, hnext, hat'⟩ := hat.lookahead
  have hs := hs.of_act_bind
  have ht := ht.of_act_bind
  -- the first parse skips its semicolon, the second one rejects the statement that it finds in its place
  rw [hsemicolon, if_pos rfl] at hs
  rw [hnext, if_neg hnext_ne, if_pos σ.starts_next] at ht
  obtain ⟨hlook, hresumed⟩ := hat'.crosses
  obtain ⟨u, s₁, hskip, hs⟩ := hs.of_bind
  obtain ⟨rfl, rfl⟩ := hskip.of_act_bind.of_pure
  have hs := hs.of_act_bind
  have ht := ht.of_act_bind
  rw [hlook, hfollow, if_neg Bool.false_ne_true] at hs
  obtain ⟨n, s₂, hs, hend⟩ := hs.of_bind
  obtain ⟨rfl, rfl⟩ := hend.of_pure
  obtain ⟨n', t₂, ht, hend⟩ := ht.of_bind
  obtain ⟨rfl, rfl⟩ := hend.of_pure
  have hsees := hresumed.ready.sees (D := caring ctx) hresumed.settled (fun _ _ => trivial) fun _ _ _ => trivial
  have hobeys (v : AtHand) := (caring ctx).statement v ((caring ctx).calm_of_lax id v) rfl
  obtain ⟨rfl, hresumed'⟩ := hs.resumed id count_pos ht hsees False.elim (hobeys _) hresumed
  refine ⟨_, rfl, rfl, fun hless => ⟨hresumed', ?_⟩⟩
  have hcount : t.remaining = σ.count := congrArg List.length hat.ahead'
  have hremaining : s'.remaining = t'.remaining := congrArg List.length hresumed'.ahead
  omega

/-- A loop whose rounds get over the seam, after a script that comes to the seam, gets over it. -/
theorem Divides.over {first : Script α} {init : α → β} {step : β → Script (ForInStep β)} {next : β → Script γ}
    (hfirst : σ.Divides limit first fun _ => True)
    (hstep : ∀ b, σ.Divides limit (step b) fun r => ∃ c, r = .yield c) (hcrosses : ∀ b, σ.Crosses limit (step b))
    (hnext : ∀ b, σ.Divides limit (next b) stops) :
    σ.Divides limit (first >>= fun a => .loop (init a) step >>= next) stops := by
  -- a round that starts before the seam ends before it or at it, and one that starts at it gets over it
  have hround : ∀ {b : β} {s s' t t' : ParserState} {r r' : ForInStep β} {limit' : Nat},
      Script.Advances (Rule.body ctx) limit (step b) s r s' → Script.Advances (Rule.body ctx) limit' (step b) t r' t' →
        s'.reader.reporter.errorCount = 0 → (∃ front, σ.Before front s t) ∨ σ.At s t →
          r = r' ∧ (∀ c, r = .done c → σ.Beyond s' t') ∧
            (t'.remaining < t.remaining → σ.Beyond s' t' ∨ σ.At s' t') := by
    intro b s s' t t' r r' limit' hs ht hzero hst
    obtain ⟨front, hbefore⟩ | hat := hst
    · obtain ⟨rfl, hend⟩ := hstep b hs ht hzero hbefore
      refine ⟨rfl, ?_, fun _ => hend.imp_right And.left⟩
      rintro c rfl
      exact hend.resolve_right (by simp)
    · obtain ⟨c, rfl, rfl, hafter⟩ := hcrosses b hs ht hzero hat
      exact ⟨rfl, nofun, fun less => .inl (.inr (hafter less))⟩
  -- the two loops take their rounds together; each round that goes on leaves fewer symbols ahead
  have hloop : ∀ {b : β} {s s' t t' : ParserState} {c d : β} {limit' : Nat},
      Script.Advances (Rule.body ctx) limit (.loop b step) s c s' →
        Script.Advances (Rule.body ctx) limit' (.loop b step) t d t' → s'.reader.reporter.errorCount = 0 →
          σ.Beyond s t ∨ σ.At s t → c = d ∧ σ.Beyond s' t' := by
    intro b s s' t t' c d limit' hs ht hzero hst
    induction hcount : s.remaining using Nat.strong_induction_on generalizing b s t with
    | _ count ih =>
      subst hcount
      rw [Beyond, or_assoc, or_left_comm] at hst
      obtain hafter | hst := hst
      · obtain ⟨hsame, hafter⟩ := hafter.run hs ht
        exact ⟨hsame, .inr hafter⟩
      · obtain hs | ⟨e, s₁, hs, less, hs'⟩ := hs.of_loop
        · obtain ht | ⟨e, t₁, ht, -, -⟩ := ht.of_loop
          · obtain ⟨hsame, hdone, -⟩ := hround hs ht hzero hst
            exact ⟨ForInStep.done.inj hsame, hdone c rfl⟩
          · cases (hround hs ht hzero hst).1
        · have hzero₁ := hs'.grows.reported
          obtain ht | ⟨e', t₁, ht, less', ht'⟩ := ht.of_loop
          · cases (hround hs ht (by omega) hst).1
          · obtain ⟨hsame, -, hmiddle⟩ := hround hs ht (by omega) hst
            obtain rfl := ForInStep.yield.inj hsame
            exact ih _ less hs' ht' (hmiddle less') rfl
  intro s s' t t' b c limit' front hs ht hzero hst
  obtain ⟨a, s₁, hs, hs'⟩ := hs.of_bind
  obtain ⟨a', t₁, ht, ht'⟩ := ht.of_bind
  have hzero₁ := hs'.grows.reported
  obtain ⟨rfl, hmiddle⟩ := hfirst hs ht (by omega) hst
  obtain ⟨d, s₂, hs, hs'⟩ := hs'.of_bind
  obtain ⟨d', t₂, ht, ht'⟩ := ht'.of_bind
  have hzero₂ := hs'.grows.reported
  obtain ⟨rfl, ⟨front', hbefore⟩ | hafter⟩ := hloop hs ht (by omega) (hmiddle.imp_right And.left)
  · exact hnext d hs' ht' hzero hbefore
  · obtain ⟨hsame, hafter⟩ := hafter.run hs' ht'
    exact ⟨hsame, .inl (.inr hafter)⟩

/-- A sequence of statements does not stop at the seam. -/
theorem divides_statementSequence (hrecurs : σ.Recurs limit) :
    σ.Divides limit (Script.statementSequence ctx) fun _ => False := by
  have hstatement := divides_statement hrecurs
  have hnext : ∀ statements : List Node, σ.Divides limit
      (Script.statement ctx >>= fun n => Pure.pure (ForInStep.yield (n :: statements))) fun r => ∃ c, r = .yield c :=
    fun statements => .bind hstatement (fun n _ => .idles (a := .yield (n :: statements)) (fun _ _ _ => rfl) ⟨_, rfl⟩)
      fun n => .pure
  have hrefuses : ∀ statements : List Node, Script.Refuses (do
      if (Production.statementSequence.follow ctx).contains (← Script.lookahead) then
        Script.act (.warnAccepted .semicolonAfterStatements)
        return ForInStep.done statements
      return .yield ((← Script.statement ctx) :: statements)) := by
    intro statements
    simp [Script.Refuses, Script.statement, Production.follow]
  refine .enter (.lookahead fun t => .ite ?_ ?_)
  · exact .followed (.act rfl) fun _ => .pure
  · refine .over hstatement (fun statements => .lookahead fun u => .ite ?_ (.ite .reject .pure))
      (fun statements => crosses_statements) fun statements => .list
    refine .skip (.refuses (hrefuses statements) (.lookahead fun v => .ite ?_ (hnext statements)))
    exact .followed (.act rfl) fun _ => .pure

/-- So it is at any limit, and so are expressions. -/
theorem recurs (limit : Nat) : σ.Recurs limit := by
  induction limit with
  | zero => exact ⟨nofun, nofun⟩
  | succ limit ih =>
    have hbelow : ∀ n < limit + 1, σ.Recurs n := fun n hn =>
      ⟨fun m hm => ih.expression m (by omega), fun m hm => ih.sequence m (by omega)⟩
    exact ⟨fun n hn => divides_expression (hbelow n hn), fun n hn => divides_statementSequence (hbelow n hn)⟩

end Seam

end Modula
