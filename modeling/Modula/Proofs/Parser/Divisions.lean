import Modula.Proofs.Parser.Seam

/-!
# Runs up to a missing semicolon

Two runs of a script, one of them with a semicolon before it that the other one has not, yield the same if the script
may be left at the seam (`Seam.Divides`), and a script that comes after that has to pause there as well
(`Seam.Continues`). The lemmas follow a script from its start to its end.
-/

set_option autoImplicit false

namespace Modula

open SymbolReader ParserState

namespace Seam

variable {ctx : Context} (σ : Seam ctx) {α β : Type}

/-- From before the seam, two runs of a script yield the same, and stay before it, pass it, or end there with a result
at which the script may stop. -/
def Divides (limit : Nat) (script : Script α) (stops : α → Prop) : Prop :=
  ∀ ⦃s s' t t' : ParserState⦄ ⦃a b : α⦄ ⦃limit' : Nat⦄ ⦃front : List Symbol⦄,
    Script.Advances (Rule.body ctx) limit script s a s' → Script.Advances (Rule.body ctx) limit' script t b t' →
      s'.reader.reporter.errorCount = 0 → σ.Before front s t → a = b ∧ (σ.Beyond s' t' ∨ σ.At s' t' ∧ stops a)

/-- A script that comes to the seam in the same way in two runs, or is there from the beginning. -/
structure Continues (limit : Nat) (script : Script α) (stops : α → Prop) : Prop where
  pauses : σ.Pauses script stops
  divides : σ.Divides limit script stops

/-- What is said of the rules that statements are made of, as long as they are called with few enough symbols ahead. A
sequence of statements does not stop between two of them. -/
structure Recurs (limit : Nat) : Prop where
  expression : ∀ n < limit, σ.Divides n (Script.expression ctx) fun _ => True
  sequence : ∀ n < limit, σ.Divides n (Script.statementSequence ctx) fun _ => False

variable {σ} {limit : Nat} {stops : α → Prop} {stops' : β → Prop} {a : α} {s s' : ParserState}

namespace Divides

variable {script first : Script α} {next : α → Script β}

/-- A script may stop at more results than it does. -/
theorem mono {stops' : α → Prop} (h : σ.Divides limit script stops) (hstops : ∀ a, stops a → stops' a) :
    σ.Divides limit script stops' := by
  intro s s' t t' b c limit' front hs ht hzero hst
  obtain ⟨hsame, hbeyond | ⟨hat, hstop⟩⟩ := h hs ht hzero hst
  · exact ⟨hsame, .inl hbeyond⟩
  · exact ⟨hsame, .inr ⟨hat, hstops _ hstop⟩⟩

/-- A script that does nothing stays before the seam. -/
theorem pure : σ.Divides limit (Pure.pure a : Script α) stops := by
  intro s s' t t' b c limit' front hs ht hzero hst
  obtain ⟨rfl, rfl⟩ := hs.of_pure
  obtain ⟨rfl, rfl⟩ := ht.of_pure
  exact ⟨rfl, .inl (.inl ⟨front, hst⟩)⟩

/-- An action that accepts nothing stays before the seam. -/
theorem act {action : Action α} (h : action.accepts = false) : σ.Divides limit (.act action) stops := by
  intro s s' t t' b c limit' front hs ht hzero hst
  obtain ⟨rfl, rfl⟩ := hs.of_act
  obtain ⟨rfl, rfl⟩ := ht.of_act
  obtain ⟨hsame, hbefore⟩ := hst.perform action h
  exact ⟨hsame, .inl (.inl ⟨front, hbefore⟩)⟩

/-- Where the seam is between them, the second script has to pause there. Something may be known of what the first one
yields if it reports no error. -/
theorem bind_of {P : α → Prop} (hfirst : σ.Divides limit first stops)
    (hyields : ∀ {s s' a}, Script.Advances (Rule.body ctx) limit first s a s' → s'.reader.reporter.errorCount = 0 → P a)
    (hpauses : ∀ a, P a → stops a → σ.Pauses (next a) stops') (hnext : ∀ a, P a → σ.Divides limit (next a) stops') :
    σ.Divides limit (first >>= next) stops' := by
  intro s s' t t' b c limit' front hs ht hzero hst
  obtain ⟨a, s₁, hs, hs'⟩ := hs.of_bind
  obtain ⟨a', t₁, ht, ht'⟩ := ht.of_bind
  have hzero₁ : s₁.reader.reporter.errorCount = 0 := by
    have hgrows := hs'.grows.reported
    omega
  have ha := hyields hs hzero₁
  obtain ⟨rfl, (⟨front', hbefore⟩ | hafter) | ⟨hat, hstops⟩⟩ := hfirst hs ht hzero₁ hst
  · exact hnext a ha hs' ht' hzero hbefore
  · obtain ⟨hsame, hafter⟩ := hafter.run hs' ht'
    exact ⟨hsame, .inl (.inr hafter)⟩
  · obtain ⟨hsame, hat⟩ := hat.run (hpauses a ha hstops) hs' ht' hzero
    exact ⟨hsame, .inr hat⟩

/-- Where the seam is between two scripts, the second one has to pause there. -/
theorem bind (hfirst : σ.Divides limit first stops) (hpauses : ∀ a, stops a → σ.Pauses (next a) stops')
    (hnext : ∀ a, σ.Divides limit (next a) stops') : σ.Divides limit (first >>= next) stops' :=
  bind_of (P := fun _ => True) hfirst (fun _ _ => trivial) (fun a _ => hpauses a) fun a _ => hnext a

/-- A script with the scripts that continue after it. -/
theorem continued (hfirst : σ.Divides limit first fun _ => True) (hnext : ∀ a, σ.Continues limit (next a) stops') :
    σ.Divides limit (first >>= next) stops' :=
  bind hfirst (fun a _ => (hnext a).pauses) fun a => (hnext a).divides

/-- Where the seam is not between them, the second script need not pause. -/
theorem followed (hfirst : σ.Divides limit first fun _ => False) (hnext : ∀ a, σ.Divides limit (next a) stops') :
    σ.Divides limit (first >>= next) stops' :=
  bind hfirst (fun _ => False.elim) hnext

/-- Both branches come to the seam. -/
theorem ite {p : Prop} [Decidable p] {c d : Script α} (hc : σ.Divides limit c stops) (hd : σ.Divides limit d stops) :
    σ.Divides limit (if p then c else d) stops := by
  split
  · exact hc
  · exact hd

/-- A loop that goes on at the seam has to pause there. -/
theorem loop {init : α} {step : α → Script (ForInStep α)} {stops : ForInStep α → Prop} {stops' : α → Prop}
    (hstep : ∀ a, σ.Divides limit (step a) stops) (hdone : ∀ a, stops (.done a) → stops' a)
    (hpauses : ∀ a, stops (.yield a) → σ.Pauses (.loop a step) stops') :
    σ.Divides limit (.loop init step) stops' := by
  intro s s' t t' b c limit' front hs ht hzero hst
  induction hcount : s.remaining using Nat.strong_induction_on generalizing init s t front with
  | _ count ih =>
    subst hcount
    obtain hs | ⟨d, s₁, hs, less, hs'⟩ := hs.of_loop
    · obtain ht | ⟨d', t₁, ht, -, ht'⟩ := ht.of_loop
      · obtain ⟨hsame, hend⟩ := hstep init hs ht hzero hst
        exact ⟨ForInStep.done.inj hsame, hend.imp_right fun h => ⟨h.1, hdone _ h.2⟩⟩
      · cases (hstep init hs ht hzero hst).1
    · have hzero₁ := hs'.grows.reported
      obtain ht | ⟨d', t₁, ht, -, ht'⟩ := ht.of_loop
      · cases (hstep init hs ht (by omega) hst).1
      · obtain ⟨hsame, hmiddle⟩ := hstep init hs ht (by omega) hst
        obtain rfl := ForInStep.yield.inj hsame
        obtain (⟨front', hbefore⟩ | hafter) | ⟨hat, hstops⟩ := hmiddle
        · exact ih _ less hs' ht' hbefore rfl
        · obtain ⟨hsame, hafter⟩ := hafter.run hs' ht'
          exact ⟨hsame, .inl (.inr hafter)⟩
        · obtain ⟨hsame, hat⟩ := hat.run (hpauses d hstops) hs' ht' hzero
          exact ⟨hsame, .inr hat⟩

/-- A loop whose rounds do not stop at the seam does not stop there either. -/
theorem loop_never {init : α} {step : α → Script (ForInStep α)}
    (hstep : ∀ a, σ.Divides limit (step a) fun _ => False) : σ.Divides limit (.loop init step) fun _ => False :=
  loop hstep (fun _ => id) fun _ => False.elim

end Divides

/-! ## Building nodes -/

/-- Building a list stays before the seam. -/
theorem Divides.list {t : NodeType} {ns : List Node} {stops : Node → Prop} :
    σ.Divides limit (Script.list t ns) stops := by
  unfold Script.list
  split
  · exact .pure
  · exact .act rfl

namespace Continues

variable {first : Script α} {next : α → Script β} {t : NodeType} {ns : List Node}

/-- At the seam a script that rejects a semicolon pauses for want of errors. -/
theorem refuses {script : Script α} (h : script.Refuses) (hdivides : σ.Divides limit script stops) :
    σ.Continues limit script stops :=
  ⟨.refuses h, hdivides⟩

/-- A script that does nothing stays where it is. -/
theorem pure : σ.Continues limit (Pure.pure a : Script α) fun _ => True :=
  ⟨.idles (a := a) (fun _ _ _ => rfl) trivial, .pure⟩

/-- Scripts that continue do so one after the other. -/
theorem bind (hfirst : σ.Continues limit first fun _ => True) (hnext : ∀ a, σ.Continues limit (next a) stops') :
    σ.Continues limit (first >>= next) stops' :=
  ⟨.bind hfirst.pauses fun a _ => (hnext a).pauses, .continued hfirst.divides hnext⟩

/-- Building a node takes no symbol on either side of the seam. -/
theorem build {node : Except NodeError Node} : σ.Continues limit (.act (.build node)) fun _ => True :=
  ⟨.idles (a := node.toOption.getD .empty) (fun _ _ _ => rfl) trivial, .act rfl⟩

/-- So it is with a branch. -/
theorem branch : σ.Continues limit (Script.branch t ns) fun _ => True := build

/-- So it is with a node of one value. -/
theorem terminal {value : String} : σ.Continues limit (Script.terminal t value) fun _ => True := build

/-- So it is with a node of several values. -/
theorem terminals {values : List String} : σ.Continues limit (Script.terminals t values) fun _ => True := by
  unfold Script.terminals
  split
  · exact pure
  · exact build

/-- So it is with a list. -/
theorem list : σ.Continues limit (Script.list t ns) fun _ => True := by
  refine ⟨?_, .list⟩
  unfold Script.list
  split
  · exact .idles (fun _ _ _ => rfl) trivial
  · exact .idles (fun _ _ _ => rfl) trivial

/-- A loop that ends at the seam without doing anything. -/
theorem loop {init : α} {step : α → Script (ForInStep α)} (hidles : ∀ a, (Script.loop a step).Idles a)
    (hstep : ∀ a, σ.Divides limit (step a) fun _ => True) : σ.Continues limit (.loop init step) fun _ => True :=
  ⟨.idles (hidles init) trivial, .loop hstep (fun _ _ => trivial) fun a _ => .idles (hidles a) trivial⟩

end Continues

/-! ## Looking and accepting -/

namespace Before

variable {front : List Symbol} {t t' : ParserState} {b : α}

/-- Before the seam an action that accepts nothing leaves the next symbol. -/
theorem next_perform (h : σ.Before front s t) (action : Action α) (haction : action.accepts = false) :
    (action.perform s).2.reader.next = s.reader.next := by
  obtain ⟨u, others, rfl, -, hnext, -⟩ := h.head
  obtain ⟨v, others', hfront, -, hnext', -⟩ := (h.perform action haction).2.head
  rw [hnext, hnext', (List.cons.inj hfront).1]

/-- What is seen before the seam is the next symbol. -/
theorem lookahead_perform (h : σ.Before front s t) :
    (Action.lookahead.perform s).1 = s.reader.next.token.wellFormed := by
  rw [← h.next_perform .lookahead rfl]
  rfl

/-- A qualified identifier goes on with a point. -/
theorem qualifies_perform (h : σ.Before front s t) (hfound : (Action.qualifies.perform s).1 = true) :
    s.reader.next.token = .dot := by
  rw [Action.qualifies_of_settled h.ready h.settled] at hfound
  rw [h.ready.ends.next_token]
  exact (of_decide_eq_true hfound).1

/-- Skipping a symbol leads on, up to the semicolon. -/
theorem skip {next : Unit → Script α} {limit' : Nat} (h : σ.Before front s t)
    (hs : Script.Advances (Rule.body ctx) limit (Script.skip >>= next) s a s')
    (ht : Script.Advances (Rule.body ctx) limit' (Script.skip >>= next) t b t') :
    ∃ s₁ t₁, Script.Advances (Rule.body ctx) limit (next ()) s₁ a s' ∧
      Script.Advances (Rule.body ctx) limit' (next ()) t₁ b t' ∧
        ∃ others, front = s.reader.next :: others ∧ s.reader.next.token ≠ .pragma ∧
          (σ.Before (withoutPragmas others) s₁ t₁ ∨ bare others = [] ∧ s.reader.next.token = σ.last ∧ σ.At s₁ t₁) := by
  obtain ⟨u, s₁, hskip, hs⟩ := hs.of_bind
  obtain ⟨rfl, rfl⟩ := hskip.of_act_bind.of_pure
  obtain ⟨u, t₁, hskip, ht⟩ := ht.of_bind
  obtain ⟨rfl, rfl⟩ := hskip.of_act_bind.of_pure
  exact ⟨_, _, hs, ht, h.accept.2⟩

end Before

namespace Divides

variable {next : Unit → Script α} {c d : Script α} {t : Token}

/-- Entering a production stays before the seam. -/
theorem enter {p : Production} (h : σ.Divides limit (next ()) stops) :
    σ.Divides limit (Script.enter p >>= next) stops :=
  .followed (.act rfl) fun _ => h

/-- So does looking at the next token. -/
theorem lookahead {next : Token → Script α} (h : ∀ t, σ.Divides limit (next t) stops) :
    σ.Divides limit (Script.lookahead >>= next) stops :=
  .followed (.act rfl) h

/-- So does a test for a token. -/
theorem nextIs {next : Bool → Script α} (h : ∀ b, σ.Divides limit (next b) stops) :
    σ.Divides limit (Script.nextIs t >>= next) stops :=
  .followed (.followed (.act rfl) fun _ => .pure) h

/-- So does a test for a production. -/
theorem starts {p : Production} {next : Bool → Script α} (h : ∀ b, σ.Divides limit (next b) stops) :
    σ.Divides limit (Script.starts ctx p >>= next) stops :=
  .followed (.followed (.act rfl) fun _ => .pure) h

/-- Accepting a symbol leads on, or up to the seam. -/
theorem accept : σ.Divides limit Script.accept fun _ => True := by
  intro s s' t t' b c limit' front hs ht hzero hst
  obtain ⟨rfl, rfl⟩ := hs.of_act
  obtain ⟨rfl, rfl⟩ := ht.of_act
  obtain ⟨hsame, others, -, -, hbefore | ⟨-, -, hat⟩⟩ := hst.accept
  · exact ⟨hsame, .inl (.inl ⟨_, hbefore⟩)⟩
  · exact ⟨hsame, .inr ⟨hat, trivial⟩⟩

/-- A symbol is accepted, and what follows may be at the seam. -/
theorem skip (h : σ.Continues limit (next ()) stops) : σ.Divides limit (Script.skip >>= next) stops :=
  .continued (.continued .accept fun _ => .pure) fun _ => h

/-- A bar is not the last symbol before the seam. -/
theorem skipBar {next : Unit → Script α} (h : σ.Divides limit (next ()) stops) (hd : σ.Divides limit d stops) :
    σ.Divides limit (Script.nextIs .bar >>= fun b => if b = true then Script.skip >>= next else d) stops := by
  intro s s' v v' b c limit' front hs hv hzero hst
  obtain ⟨found, s₁, hlook, hs⟩ := hs.of_bind
  obtain ⟨rfl, rfl⟩ := hlook.of_act_bind.of_pure
  obtain ⟨found, v₁, hlook, hv⟩ := hv.of_bind
  obtain ⟨rfl, rfl⟩ := hlook.of_act_bind.of_pure
  obtain ⟨hsame, hbefore⟩ := hst.perform .lookahead rfl
  rw [← hsame] at hv
  by_cases hfound : (Action.lookahead.perform s).1 = .bar
  · simp only [hfound, decide_true, if_true] at hs hv
    rw [hst.lookahead_perform, wellFormed_eq_iff (by simp)] at hfound
    have hne : (Action.lookahead.perform s).2.reader.next.token ≠ σ.last := by
      rw [hst.next_perform .lookahead rfl, hfound]
      exact σ.last_ne_bar.symm
    obtain ⟨s₂, v₂, hs, hv, others, -, -, hbefore' | ⟨-, hlast, -⟩⟩ := hbefore.skip hs hv
    · exact h hs hv hzero hbefore'
    · exact (hne hlast).elim
  · simp only [hfound, decide_false, Bool.false_eq_true, if_false] at hs hv
    exact hd hs hv hzero hbefore

/-- A point that belongs to a qualified identifier is not the last symbol before the seam. -/
theorem qualifies {next : Unit → Script α} (h : σ.Divides limit (next ()) stops) (hd : σ.Divides limit d stops) :
    σ.Divides limit (Script.act .qualifies >>= fun b => if b = true then Script.skip >>= next else d) stops := by
  intro s s' v v' b c limit' front hs hv hzero hst
  have hs := hs.of_act_bind
  have hv := hv.of_act_bind
  obtain ⟨hsame, hbefore⟩ := hst.perform .qualifies rfl
  rw [← hsame] at hv
  by_cases hfound : (Action.qualifies.perform s).1 = true
  · rw [if_pos hfound] at hs hv
    have hne : (Action.qualifies.perform s).2.reader.next.token ≠ σ.last := by
      rw [hst.next_perform .qualifies rfl, hst.qualifies_perform hfound]
      exact σ.last_ne_point.symm
    obtain ⟨s₂, v₂, hs, hv, others, -, -, hbefore' | ⟨-, hlast, -⟩⟩ := hbefore.skip hs hv
    · exact h hs hv hzero hbefore'
    · exact (hne hlast).elim
  · rw [if_neg hfound] at hs hv
    exact hd hs hv hzero hbefore

/-- A run without errors gets past no rejection. -/
theorem reject {expected : Expected} : σ.Divides limit (Script.act (.reject expected) >>= next) stops := by
  intro s s' t t' b c limit' front hs ht hzero hst
  have hpos : 0 < (Action.perform (.reject expected) s).2.reader.reporter.errorCount := errorCount_report_pos _ rfl
  exact absurd (hpos.trans_le hs.of_act_bind.grows.reported) (by omega)

/-- A run without errors finds what it demands. -/
theorem yields_demand {resume : TokenSet} {o : Option String}
    (h : Script.Advances (Rule.body ctx) limit (Script.demand t resume) s o s')
    (hzero : s'.reader.reporter.errorCount = 0) : o.isSome = true := by
  obtain ⟨b, s₁, -, h⟩ := h.of_bind
  split at h
  · obtain ⟨rfl, -⟩ := h.of_act_bind.of_pure
    rfl
  · have hpos : 0 < (Action.perform (.reject (.token t)) s₁).2.reader.reporter.errorCount := errorCount_report_pos _ rfl
    exact absurd (hpos.trans_le h.of_act_bind.grows.reported) (by omega)

/-- A token that is demanded is found, since there are no errors. -/
theorem demand {resume : TokenSet} : σ.Divides limit (Script.demand t resume) fun _ => True :=
  nextIs fun _ => ite (.continued accept fun _ => .pure) reject

/-- A demand, with what follows if the token is there. -/
theorem expect {resume : TokenSet} (h : σ.Continues limit c stops) :
    σ.Divides limit (Script.expect t resume >>= fun b => if b = true then c else d) stops := by
  refine bind_of (P := (· = true)) (.continued demand fun _ => .pure) ?_ ?_ ?_
  · rintro s s' b h hzero
    obtain ⟨o, s₁, h, hend⟩ := h.of_bind
    obtain ⟨rfl, rfl⟩ := hend.of_pure
    exact yields_demand h hzero
  · rintro _ rfl -
    exact h.pauses
  · rintro _ rfl
    exact h.divides

/-- An identifier is found, and what follows may be at the seam. -/
theorem expectIdent {resume : TokenSet} {next : Option String → Script α}
    (h : ∀ ident, σ.Continues limit (next (some ident)) stops) :
    σ.Divides limit (Script.expectIdent resume >>= next) stops := by
  refine bind_of (P := fun o => o.isSome = true) demand yields_demand ?_ ?_
  · rintro (_ | ident) hsome -
    · cases hsome
    · exact (h ident).pauses
  · rintro (_ | ident) hsome
    · cases hsome
    · exact (h ident).divides

/-- An expression may end at the seam, if it is called with few enough symbols ahead. -/
theorem call_expression (hrecurs : σ.Recurs limit) : σ.Divides limit (.call .expression) fun _ => True := by
  intro s s' t t' a b limit' front hs ht hzero hst
  cases hs with
  | call less hs =>
    cases ht with
    | call _ ht => exact hrecurs.expression _ less hs ht hzero hst

/-- A sequence of statements does not. -/
theorem call_sequence (hrecurs : σ.Recurs limit) : σ.Divides limit (.call .statementSequence) fun _ => False := by
  intro s s' t t' a b limit' front hs ht hzero hst
  cases hs with
  | call less hs =>
    cases ht with
    | call _ ht => exact hrecurs.sequence _ less hs ht hzero hst

end Divides

namespace Continues

variable {c d : Script α} {t : Token}

/-- A token that is demanded at the seam is missing in a run with the semicolon. -/
theorem expect {resume : TokenSet} (ht : t ≠ .semicolon) (h : σ.Continues limit c stops) :
    σ.Continues limit (Script.expect t resume >>= fun b => if b = true then c else d) stops := by
  refine .refuses ?_ (.expect h)
  rw [Script.Refuses, Script.outset_bind, Script.outset_expect, if_neg ht.symm, Outset.bind_rejects]

/-- A script that wants an identifier pauses at the seam for want of errors. -/
theorem expectIdent {resume : TokenSet} {next : Option String → Script α}
    (h : ∀ ident, σ.Continues limit (next (some ident)) stops) :
    σ.Continues limit (Script.expectIdent resume >>= next) stops :=
  .refuses rfl (.expectIdent h)

/-- What is done only at a token that is not found at the seam may do there what it likes. -/
theorem nextIs (ht : t ∉ Token.ofSeams) (hc : σ.Divides limit c stops) (hd : σ.Continues limit d stops) :
    σ.Continues limit (Script.nextIs t >>= fun b => if b = true then c else d) stops := by
  refine ⟨.bind_idles (a := false) (fun refused u hu => ?_) hd.pauses, .nextIs fun _ => .ite hc hd.divides⟩
  have hne : u ≠ t := fun h => ht (h ▸ hu)
  simp [hne]

/-- At the seam only the branch counts for what does not start a production. -/
theorem starts {p : Production} (hp : ∀ t ∈ Token.ofSeams, (p.first ctx).contains t = false)
    (hc : σ.Divides limit c stops) (hd : σ.Continues limit d stops) :
    σ.Continues limit (Script.starts ctx p >>= fun b => if b = true then c else d) stops := by
  refine ⟨.bind_idles (a := false) (fun refused u hu => ?_) hd.pauses, .starts fun _ => .ite hc hd.divides⟩
  simp [hp u hu]

variable {next : Node → Script α} (hrecurs : σ.Recurs limit)

include hrecurs

/-- A call of an expression pauses at the seam for want of errors. -/
theorem call_expression (h : ∀ n, σ.Continues limit (next n) stops) :
    σ.Continues limit (Script.call .expression >>= next) stops :=
  .refuses Script.refuses_expression.bind (.continued (.call_expression hrecurs) h)

/-- So does a call of a sequence, and what follows it is not at the seam. -/
theorem call_sequence (h : ∀ n, σ.Divides limit (next n) stops) :
    σ.Continues limit (Script.call .statementSequence >>= next) stops :=
  .refuses Script.refuses_statementSequence.bind (.followed (.call_sequence hrecurs) h)

end Continues

end Seam

end Modula
