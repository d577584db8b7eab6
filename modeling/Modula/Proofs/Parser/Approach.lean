import Modula.Proofs.Grammar.StatementParts
import Modula.Proofs.Parser.Crossing

/-!
# Up to the statements of a block

The seam is inside the statements of a block, and how deep inside statements the parser is can be told from the symbols
that it has accepted. So up to the first word of the block, two runs do the same and do not come to the seam
(`Seam.Approaches`), and then the statements get over it, or leave it where it is, in statements still to come.
-/

set_option autoImplicit false

namespace Modula

open SymbolReader ParserState

/-- Literals do not open statements, malformed or not. -/
theorem Token.depthAfter_wellFormed (d : Nat) (t : Token) : t.wellFormed.depthAfter d = t.depthAfter d := by
  cases t <;> rfl

/-- How deep a text is in statements does not depend on how literals are taken. -/
theorem depthOf_map_taken (d : Nat) (w : List Symbol) : depthOf d (w.map Symbol.taken) = depthOf d w := by
  induction w generalizing d with
  | nil => rfl
  | cons u w ih =>
    have hu : u.taken.token.depthAfter d = u.token.depthAfter d := u.token.depthAfter_wellFormed d
    rw [List.map_cons, depthOf_cons, depthOf_cons, hu, ih]

/-! ## What a run takes -/

namespace Script

variable {limit : Nat} {α : Type} {script : Script α} {a : α} {s s' : ParserState}

/-- A run takes symbols from the start. -/
theorem Advances.suffix {body : Rule → Script Node} (h : Advances body limit script s a s') (hs : s.Ready) :
    s'.Ready ∧ s'.reader.ahead <:+ s.reader.ahead := by
  refine h.stays (P := fun u => u.Ready ∧ u.reader.ahead <:+ s.reader.ahead) ?_ ⟨hs, List.suffix_refl _⟩
  rintro β action u ⟨hu, hsuffix⟩
  obtain ⟨hready, hleaves⟩ := action.perform_leaves hu
  exact ⟨hready, hleaves.suffix.trans hsuffix⟩

/-- What a run takes is derived by the row that the script parses, if no error is reported. -/
theorem Parses.taken {g : Grammar} {x : String} {known : List Symbol → Prop} {es : List Ebnf} {R : α → Prop}
    (h : Parses g x known script es R) (hplain : g.namesSetTypes = false)
    (hrun : Advances (Rule.body g.context) limit script s a s') (hs : s.Ready)
    (hsettled : firstToken s.reader.ahead ≠ .pragma) (hknown : known ((bare s.reader.ahead).map Symbol.taken))
    (hzero : s'.reader.reporter.errorCount = 0) :
    ∃ w closings, bare s.reader.ahead = w ++ bare s'.reader.ahead ∧
      Derives g.rules x es (w.map Symbol.taken) closings := by
  have hfaces : s.Faces True ((bare s.reader.ahead).map Symbol.taken) := ⟨hs, hsettled, rfl, .inl trivial⟩
  obtain herror | ⟨v, hv, ⟨m, closings, hm, hderives, -⟩, -⟩ := hrun.sounds hplain hfaces (h.sound _ hknown)
  · omega
  obtain ⟨w, rest, hsplit, rfl, hrest⟩ := List.map_eq_append_iff.mp hm
  have hlength : rest.length = (bare s'.reader.ahead).length := by
    have hmaps : (rest.map Symbol.taken).length = ((bare s'.reader.ahead).map Symbol.taken).length := by
      rw [hrest, hv.ahead]
    simpa using hmaps
  have hleft : bare s'.reader.ahead <:+ bare s.reader.ahead := (hrun.suffix hs).2.filter _
  have hsame : bare s'.reader.ahead = rest := by
    rw [hsplit] at hleft
    exact (List.suffix_of_suffix_length_le hleft (List.suffix_append w rest) hlength.ge).eq_of_length hlength.symm
  exact ⟨w, closings, by rw [hsplit, hsame], hderives⟩

end Script

namespace Seam

variable {ctx : Context} (σ : Seam ctx) {α β : Type}

/-- The seam is ahead of both parses, so many levels deep in statements that there are statements around it. -/
def Inside (d : Nat) (s t : ParserState) : Prop := ∃ front, σ.Before front s t ∧ 0 < depthOf d (bare front)

/-- From before the seam at one depth in statements, two runs of a script yield the same, and pass the seam or stay
before it, at another depth. Something may have to be known of the symbols ahead, as the parser takes them. -/
def Approaches (limit d d' : Nat) (known : List Symbol → Prop) (script : Script α) : Prop :=
  ∀ ⦃s s' t t' : ParserState⦄ ⦃a b : α⦄ ⦃limit' : Nat⦄,
    Script.Advances (Rule.body ctx) limit script s a s' → Script.Advances (Rule.body ctx) limit' script t b t' →
      s'.reader.reporter.errorCount = 0 → σ.Inside d s t → known ((bare s.reader.ahead).map Symbol.taken) →
        a = b ∧ (σ.Inside d' s' t' ∨ σ.After s' t')

variable {σ} {limit d d' d'' : Nat} {known : List Symbol → Prop} {front : List Symbol} {s s' t t' : ParserState}

/-- If a run ends before the seam, the other one does the same. -/
theorem Before.stays {script : Script α} {a b : α} {limit' : Nat} (h : σ.Before front s t)
    (hs : Script.Advances (Rule.body ctx) limit script s a s')
    (ht : Script.Advances (Rule.body ctx) limit' script t b t')
    (hends : (σ.semicolon :: σ.after).length < s'.remaining) : a = b ∧ ∃ front', σ.Before front' s' t' := by
  refine hs.lockstep_until (R := fun u v => ∃ front, σ.Before front u v)
    (G := fun u => u.Ready → (σ.semicolon :: σ.after).length < u.remaining) ?_ ?_ ht ⟨front, h⟩ fun _ => hends
  · intro γ action u hlater hu
    obtain ⟨hready, hleaves⟩ := action.perform_leaves hu
    exact (hlater hready).trans_le hleaves.suffix.length_le
  · rintro γ action u v ⟨front, hbefore⟩ hlater
    cases haccepts : action.accepts with
    | false =>
      obtain ⟨hsame, hbefore'⟩ := hbefore.perform action haccepts
      exact ⟨hsame, front, hbefore'⟩
    | true =>
      cases action with
      | accept =>
        obtain ⟨hsame, others, -, -, hbefore' | ⟨-, -, hat⟩⟩ := hbefore.accept
        · exact ⟨hsame, _, hbefore'⟩
        · have hless := hlater hat.ready
          rw [remaining, hat.ahead] at hless
          exact absurd hless (Nat.lt_irrefl _)
      | _ => cases haccepts

/-- But for pragmas the symbols ahead are those before the seam, the semicolon and those after it. -/
theorem Before.bare_ahead (h : σ.Before front s t) :
    bare s.reader.ahead = bare front ++ σ.semicolon :: bare σ.after := by
  rw [h.ahead, bare_append, bare_cons (by rw [σ.token_semicolon]; simp)]

/-- What is taken before the seam is the start of what is in front of it. -/
theorem Before.taken {w front' : List Symbol} (h : σ.Before front s t) (h' : σ.Before front' s' t')
    (hsplit : bare s.reader.ahead = w ++ bare s'.reader.ahead) : bare front = w ++ bare front' := by
  rw [h.bare_ahead, h'.bare_ahead, ← List.append_assoc] at hsplit
  exact List.append_cancel_right hsplit

/-- Where a run ends that does not take all of what is in front of the seam. -/
theorem Before.ends_before {w : List Symbol} (h : σ.Before front s t)
    (hsplit : bare s.reader.ahead = w ++ bare s'.reader.ahead) (hsuffix : s'.reader.ahead <:+ s.reader.ahead) :
    bare front <+: w ∨ (σ.semicolon :: σ.after).length < s'.remaining := by
  by_contra hneither
  obtain ⟨hstart, hless⟩ := not_or.mp hneither
  have hahead : s.reader.ahead = front ++ σ.semicolon :: σ.after := h.ahead
  have hend : s'.reader.ahead <:+ σ.semicolon :: σ.after := by
    rw [hahead] at hsuffix
    exact List.suffix_of_suffix_length_le hsuffix (List.suffix_append _ _) (not_lt.mp hless)
  have hbare : (bare s'.reader.ahead).length ≤ (σ.semicolon :: bare σ.after).length := by
    have hfilter : bare s'.reader.ahead <:+ bare (σ.semicolon :: σ.after) := hend.filter _
    rw [bare_cons (by rw [σ.token_semicolon]; simp)] at hfilter
    exact hfilter.length_le
  rw [h.bare_ahead] at hsplit
  refine hstart (List.prefix_of_prefix_length_le (List.prefix_append _ _) ⟨_, hsplit.symm⟩ ?_)
  have hlength := congrArg List.length hsplit
  rw [List.length_append, List.length_append] at hlength
  omega

/-- A script that parses a row without `BEGIN` is done before the seam. -/
theorem Approaches.parses {x : String} {es : List Ebnf} {R : α → Prop} {script : Script α}
    (hparses : script.Parses ⟨ctx, false⟩ x known es R)
    (hrow : ∀ {w closings}, Derives (Grammar.rules ⟨ctx, false⟩) x es w closings → ∀ u ∈ w, u.token ≠ .kwBegin) :
    σ.Approaches limit 0 0 known script := by
  rintro s s' t t' a b limit' hs ht hzero ⟨front, hbefore, hdeep⟩ hknown
  obtain ⟨w, closings, hsplit, hderives⟩ :=
    hparses.taken rfl hs hbefore.ready hbefore.settled hknown hzero
  have hnone : ∀ u ∈ w, u.token ≠ .kwBegin := by
    intro u hu hbegin
    exact hrow hderives u.taken (List.mem_map_of_mem hu) (by rw [Symbol.taken, hbegin]; rfl)
  obtain hstart | hless := hbefore.ends_before hsplit (hs.suffix hbefore.ready).2
  · rw [depthOf_of_no_begin fun u hu => hnone u (hstart.subset hu)] at hdeep
    exact (Nat.lt_irrefl 0 hdeep).elim
  · obtain ⟨hsame, front', hbefore'⟩ := hbefore.stays hs ht hless
    refine ⟨hsame, .inl ⟨front', hbefore', ?_⟩⟩
    rwa [hbefore.taken hbefore' hsplit, depthOf_append, depthOf_of_no_begin hnone] at hdeep

/-- The parser takes the next symbol for what is first ahead. -/
theorem Before.firstToken (h : σ.Before front s t) :
    Modula.firstToken ((bare s.reader.ahead).map Symbol.taken) = s.reader.next.token.wellFormed := by
  have hfaces : s.Faces True ((bare s.reader.ahead).map Symbol.taken) := ⟨h.ready, h.settled, rfl, .inl trivial⟩
  rw [hfaces.firstToken, h.ready.ends.next_token]

/-- Looking ahead makes known what the next token is. -/
theorem Inside.lookahead (h : σ.Inside d s t) (hknown : known ((bare s.reader.ahead).map Symbol.taken)) :
    (Action.lookahead.perform s).1 = (Action.lookahead.perform t).1 ∧
      σ.Inside d (Action.lookahead.perform s).2 (Action.lookahead.perform t).2 ∧
        known ((bare (Action.lookahead.perform s).2.reader.ahead).map Symbol.taken) ∧
          firstToken ((bare (Action.lookahead.perform s).2.reader.ahead).map Symbol.taken) =
            (Action.lookahead.perform s).1 := by
  obtain ⟨front, hbefore, hdeep⟩ := h
  obtain ⟨hsame, hbefore'⟩ := hbefore.perform .lookahead rfl
  refine ⟨hsame, ⟨front, hbefore', hdeep⟩, ?_⟩
  rw [hbefore'.ahead, ← hbefore.ahead, hbefore.firstToken, hbefore.lookahead_perform]
  exact ⟨hknown, rfl⟩

namespace Approaches

variable {script first c e : Script α} {next : α → Script β} {a : α} {t : Token}

/-- A script that does nothing stays where it is. -/
theorem pure : σ.Approaches limit d d known (Pure.pure a : Script α) := by
  intro s s' t t' b c limit' hs ht hzero hst hknown
  obtain ⟨rfl, rfl⟩ := hs.of_pure
  obtain ⟨rfl, rfl⟩ := ht.of_pure
  exact ⟨rfl, .inl hst⟩

/-- So does an action that accepts nothing. -/
theorem act {action : Action α} (h : action.accepts = false) : σ.Approaches limit d d known (.act action) := by
  rintro s s' t t' b c limit' hs ht hzero ⟨front, hbefore, hdeep⟩ hknown
  obtain ⟨rfl, rfl⟩ := hs.of_act
  obtain ⟨rfl, rfl⟩ := ht.of_act
  obtain ⟨hsame, hbefore'⟩ := hbefore.perform action h
  exact ⟨hsame, .inl ⟨front, hbefore', hdeep⟩⟩

/-- More may be known of the symbols ahead. -/
theorem weaken {known' : List Symbol → Prop} (h : σ.Approaches limit d d' known script)
    (hknown : ∀ v, known' v → known v) : σ.Approaches limit d d' known' script :=
  fun _ _ _ _ _ _ _ hs ht hzero hst hnow => h hs ht hzero hst (hknown _ hnow)

/-- Something may be known of what the first script yields if it reports no error. -/
theorem bind_of {P : α → Prop} (hfirst : σ.Approaches limit d d' known first)
    (hyields : ∀ {s s' a}, Script.Advances (Rule.body ctx) limit first s a s' → s'.reader.reporter.errorCount = 0 → P a)
    (hnext : ∀ a, P a → σ.Approaches limit d' d'' (fun _ => True) (next a)) :
    σ.Approaches limit d d'' known (first >>= next) := by
  intro s s' t t' b c limit' hs ht hzero hst hknown
  obtain ⟨a, s₁, hs, hs'⟩ := hs.of_bind
  obtain ⟨a', t₁, ht, ht'⟩ := ht.of_bind
  have hzero₁ : s₁.reader.reporter.errorCount = 0 := by
    have hgrows := hs'.grows.reported
    omega
  have ha := hyields hs hzero₁
  obtain ⟨rfl, hinside | hafter⟩ := hfirst hs ht hzero₁ hst hknown
  · exact hnext a ha hs' ht' hzero hinside trivial
  · obtain ⟨hsame, hafter⟩ := hafter.run hs' ht'
    exact ⟨hsame, .inr hafter⟩

/-- The second part starts at the depth where the first one ends. -/
theorem bind (hfirst : σ.Approaches limit d d' known first)
    (hnext : ∀ a, σ.Approaches limit d' d'' (fun _ => True) (next a)) :
    σ.Approaches limit d d'' known (first >>= next) :=
  bind_of (P := fun _ => True) hfirst (fun _ _ => trivial) fun a _ => hnext a

/-- Both branches end at the same depth. -/
theorem ite {p : Prop} [Decidable p] (hc : p → σ.Approaches limit d d' known c)
    (he : ¬p → σ.Approaches limit d d' known e) : σ.Approaches limit d d' known (if p then c else e) := by
  split
  · exact hc ‹_›
  · exact he ‹_›

/-- What is known of the symbols ahead stays known when nothing is accepted. -/
theorem enter {p : Production} {next : Unit → Script α} (h : σ.Approaches limit d d' known (next ())) :
    σ.Approaches limit d d' known (Script.enter p >>= next) := by
  rintro s s' t t' b c limit' hs ht hzero ⟨front, hbefore, hdeep⟩ hknown
  obtain ⟨-, hbefore'⟩ := hbefore.perform (.enter p) rfl
  refine h hs.of_act_bind ht.of_act_bind hzero ⟨front, hbefore', hdeep⟩ ?_
  rwa [hbefore'.ahead, ← hbefore.ahead]

/-- After a look ahead, the next token is known. -/
theorem lookahead {next : Token → Script α}
    (h : ∀ t, σ.Approaches limit d d' (fun v => known v ∧ firstToken v = t) (next t)) :
    σ.Approaches limit d d' known (Script.lookahead >>= next) := by
  intro s s' t t' b c limit' hs ht hzero hst hknown
  obtain ⟨hsame, hinside, hknown'⟩ := hst.lookahead hknown
  have hs := hs.of_act_bind
  have ht := ht.of_act_bind
  rw [← hsame] at ht
  exact h _ hs ht hzero hinside hknown'

/-- After a test of the next token, its outcome is known. -/
theorem test {f : Token → α} (h : ∀ t, σ.Approaches limit d d' (fun v => known v ∧ firstToken v = t) (next (f t))) :
    σ.Approaches limit d d' known ((Script.lookahead >>= fun t => Pure.pure (f t)) >>= next) := by
  intro s s' t t' b c limit' hs ht hzero hst hknown
  obtain ⟨hsame, hinside, hknown'⟩ := hst.lookahead hknown
  obtain ⟨r, s₁, hlook, hs⟩ := hs.of_bind
  obtain ⟨rfl, rfl⟩ := hlook.of_act_bind.of_pure
  obtain ⟨r, t₁, hlook, ht⟩ := ht.of_bind
  obtain ⟨rfl, rfl⟩ := hlook.of_act_bind.of_pure
  rw [← hsame] at ht
  exact h _ hs ht hzero hinside hknown'

/-- In one branch the token is known to be next. -/
theorem nextIs {t : Token} (hc : σ.Approaches limit d d' (fun v => known v ∧ firstToken v = t) c)
    (he : σ.Approaches limit d d' known e) :
    σ.Approaches limit d d' known (Script.nextIs t >>= fun b => if b = true then c else e) :=
  test (f := fun u => decide (u = t)) fun _ =>
    ite (fun hu => of_decide_eq_true hu ▸ hc) fun _ => he.weaken fun _ => And.left

/-- In one branch the next token is known to start the production. -/
theorem starts {p : Production} {g : Grammar} (hg : g.context = ctx)
    (hc : σ.Approaches limit d d' (fun v => known v ∧ Script.Parses.Starts g p v) c)
    (he : σ.Approaches limit d d' known e) :
    σ.Approaches limit d d' known (Script.starts ctx p >>= fun b => if b = true then c else e) := by
  subst hg
  refine test (f := (p.first g.context).contains) fun u =>
    ite (fun hu => hc.weaken ?_) fun _ => he.weaken fun _ => And.left
  rintro v ⟨hv, rfl⟩
  exact ⟨hv, hu⟩

/-- A symbol that leads out of statements, or stays outside of them, is not the last one before the seam. -/
theorem accept {t : Token} (ht : t.depthAfter d = 0) (hknown : ∀ v, known v → firstToken v = t) :
    σ.Approaches limit d 0 known Script.accept := by
  rintro s s' v v' b c limit' hs hv hzero ⟨front, hbefore, hdeep⟩ hnow
  obtain ⟨rfl, rfl⟩ := hs.of_act
  obtain ⟨rfl, rfl⟩ := hv.of_act
  have htoken : s.reader.next.token.depthAfter d = 0 := by
    rw [← Token.depthAfter_wellFormed, ← hbefore.firstToken, hknown _ hnow, ht]
  obtain ⟨hsame, others, rfl, hplain, hend⟩ := hbefore.accept
  rw [bare_cons hplain, depthOf_cons, htoken] at hdeep
  obtain hbefore' | ⟨hnil, -⟩ := hend
  · exact ⟨hsame, .inl ⟨_, hbefore', by rwa [bare_withoutPragmas]⟩⟩
  · rw [hnil] at hdeep
    exact (Nat.lt_irrefl 0 hdeep).elim

/-- After a token that leaves all statements the seam is not before the rest. -/
theorem skip {t : Token} {next : Unit → Script α} (ht : t.depthAfter d = 0) (hknown : ∀ v, known v → firstToken v = t)
    (h : σ.Approaches limit 0 d' (fun _ => True) (next ())) :
    σ.Approaches limit d d' known (Script.skip >>= next) :=
  bind (bind (accept ht hknown) fun _ => pure) fun _ => h

/-- A run without errors gets past no rejection. -/
theorem reject {expected : Expected} {next : Unit → Script α} :
    σ.Approaches limit d d' known (Script.act (.reject expected) >>= next) := by
  intro s s' t t' b c limit' hs ht hzero hst
  have hpos : 0 < (Action.perform (.reject expected) s).2.reader.reporter.errorCount := errorCount_report_pos _ rfl
  exact absurd (hpos.trans_le hs.of_act_bind.grows.reported) (by omega)

/-- So it is with one that is demanded. -/
theorem demand {t : Token} {resume : TokenSet} (ht : t.depthAfter d = 0) :
    σ.Approaches limit d 0 known (Script.demand t resume) :=
  nextIs (bind (accept ht fun _ => And.right) fun _ => pure) reject

/-- A run without errors finds the token that is demanded. -/
theorem expect {t : Token} {resume : TokenSet} {next : Bool → Script α} (ht : t.depthAfter d = 0)
    (h : σ.Approaches limit 0 d' (fun _ => True) (next true)) :
    σ.Approaches limit d d' known (Script.expect t resume >>= next) := by
  refine bind_of (P := (· = true)) (bind (demand ht) fun _ => pure) ?_ ?_
  · rintro s s' b h hzero
    obtain ⟨o, s₁, h, hend⟩ := h.of_bind
    obtain ⟨rfl, rfl⟩ := hend.of_pure
    exact Divides.yields_demand h hzero
  · rintro _ rfl
    exact h

/-- So it is with an identifier. -/
theorem expectIdent {resume : TokenSet} {next : Option String → Script α}
    (h : ∀ ident, σ.Approaches limit 0 d' (fun _ => True) (next (some ident))) :
    σ.Approaches limit 0 d' known (Script.expectIdent resume >>= next) := by
  refine bind_of (P := fun o => o.isSome = true) (demand rfl) Divides.yields_demand ?_
  rintro (_ | ident) hsome
  · cases hsome
  · exact h ident

/-- Comparing names stays where it is. -/
theorem checkClosing {opening closing : Option String} :
    σ.Approaches limit d d known (Script.checkClosing opening closing) := by
  unfold Script.checkClosing
  split
  · exact ite (fun _ => pure) fun _ => act rfl
  · exact pure

/-- So does building a node. -/
theorem build {node : Except NodeError Node} : σ.Approaches limit d d known (Script.act (.build node)) := act rfl

/-- So does building a list. -/
theorem list {t : NodeType} {ns : List Node} : σ.Approaches limit d d known (Script.list t ns) := by
  unfold Script.list
  split
  · exact pure
  · exact build

/-- So does building a node of an identifier that may be missing. -/
theorem identNode {ident : Option String} : σ.Approaches limit d d known (Script.identNode ident) := by
  cases ident with
  | none => exact pure
  | some ident => exact build

/-- A loop whose rounds end at the depth where they start does so, too. -/
theorem loop {init : α} {step : α → Script (ForInStep α)}
    (hstep : ∀ a, σ.Approaches limit d d (fun _ => True) (step a)) :
    σ.Approaches limit d d known (.loop init step) := by
  refine weaken (?_ : σ.Approaches limit d d (fun _ => True) _) fun _ _ => trivial
  intro s s' t t' b c limit' hs ht hzero hst _
  induction hcount : s.remaining using Nat.strong_induction_on generalizing init s t with
  | _ count ih =>
    subst hcount
    obtain hs | ⟨e, s₁, hs, less, hs'⟩ := hs.of_loop
    · obtain ht | ⟨e, t₁, ht, -, -⟩ := ht.of_loop
      · obtain ⟨hsame, hend⟩ := hstep init hs ht hzero hst trivial
        exact ⟨ForInStep.done.inj hsame, hend⟩
      · cases (hstep init hs ht hzero hst trivial).1
    · have hzero₁ := hs'.grows.reported
      obtain ht | ⟨e', t₁, ht, -, ht'⟩ := ht.of_loop
      · cases (hstep init hs ht (by omega) hst trivial).1
      · obtain ⟨hsame, hmiddle⟩ := hstep init hs ht (by omega) hst trivial
        obtain rfl := ForInStep.yield.inj hsame
        obtain hinside | hafter := hmiddle
        · exact ih _ less hs' ht' hinside rfl
        · obtain ⟨hsame, hafter⟩ := hafter.run hs' ht'
          exact ⟨hsame, .inr hafter⟩

/-- So does a row of what starts a production. -/
theorem whileStarts {p : Production} {g : Grammar} (hg : g.context = ctx) {item : Script α}
    (hitem : σ.Approaches limit d d (Script.Parses.Starts g p) item) :
    σ.Approaches limit d d known (Script.whileStarts ctx p item) := by
  refine bind (loop fun items => starts hg (bind (hitem.weaken fun _ => And.right) fun _ => pure) pure) fun _ => pure

/-- The first word of a block leads into its statements, which get over the seam or leave it behind them. -/
theorem statements {next : Node → Script α} (hknown : ∀ v, known v → firstToken v = .kwBegin)
    (hnext : ∀ n, σ.Approaches limit 1 d' (fun _ => True) (next n)) :
    σ.Approaches limit 0 d' known (Script.skip >>= fun _ => Script.call .statementSequence >>= next) := by
  rintro s s' t t' b c limit' hs ht hzero ⟨front, hbefore, hdeep⟩ hnow
  have htoken : s.reader.next.token.depthAfter 0 = 1 := by
    rw [← Token.depthAfter_wellFormed, ← hbefore.firstToken, hknown _ hnow]
    rfl
  obtain ⟨s₁, t₁, hs, ht, others, rfl, hplain, hmiddle⟩ := hbefore.skip hs ht
  rw [bare_cons hplain, depthOf_cons, htoken] at hdeep
  have hrefuses : σ.Pauses (Script.call .statementSequence >>= next) fun _ => False :=
    .refuses Script.refuses_statementSequence.bind
  obtain hbefore' | ⟨-, -, hat⟩ := hmiddle
  · obtain ⟨n, s₂, hs, hs'⟩ := hs.of_bind
    obtain ⟨n', t₂, ht, ht'⟩ := ht.of_bind
    have hzero₂ := hs'.grows.reported
    have hparses : (Script.call .statementSequence).Parses ⟨ctx, false⟩ "" (fun _ => True) _ _ :=
      Script.Parses.call fun _ _ => trivial
    obtain ⟨w, closings, hsplit, hderives⟩ :=
      hparses.taken rfl hs hbefore'.ready hbefore'.settled trivial (by omega)
    obtain ⟨rfl, (⟨front', hbefore''⟩ | hafter) | ⟨-, hfalse⟩⟩ :=
      Divides.call_sequence (recurs limit) hs ht (by omega) hbefore'
    · have hlevel : depthOf 1 w = 1 := by
        rw [← depthOf_map_taken]
        have hrow : rowDepth 1 [.call .statementSequence] 1 some = some 1 := by decide
        exact (hderives.depth (Grammar.keepDepth _) (le_refl 1) (by simp) hrow).1
      have htaken := hbefore'.taken hbefore'' hsplit
      rw [bare_withoutPragmas] at htaken
      rw [htaken, depthOf_append, hlevel] at hdeep
      exact hnext n hs' ht' hzero ⟨front', hbefore'', hdeep⟩ trivial
    · obtain ⟨hsame, hafter⟩ := hafter.run hs' ht'
      exact ⟨hsame, .inr hafter⟩
    · exact hfalse.elim
  · exact (hat.run hrefuses hs ht hzero).2.2.elim

end Approaches

end Seam

end Modula
