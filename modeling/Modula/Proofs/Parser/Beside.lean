import Modula.Proofs.Parser.Careful
import Modula.Proofs.Parser.Lockstep
import Modula.Proofs.Reader.Agreement

/-!
# A parse that has reported more

Two parses may be at the same symbol although one of them has reported something that the other one has not, and has
accepted another symbol last (`ParserState.Resumed`). From there on they do the same, as long as nothing is said of the
symbol accepted last before the next one is accepted (`Advances.resumed`). After that they do the same in any case
(`Advances.rejoined`).
-/

set_option autoImplicit false

namespace Modula

open SymbolReader ParserState

/-- Without its source line, a diagnostic does not show it. -/
theorem Diagnostic.hidesLines_withoutLine : HidesLines withoutLine := fun _ _ => rfl

namespace ParserState

/-- What a settled state may lead to, if something is reported beyond what symbols bring with them. -/
structure Leads (told : List Diagnostic) (s s' : ParserState) : Prop where
  ready : s'.Ready
  settled : firstToken s'.reader.ahead ≠ .pragma
  last : s'.reader.last = s.reader.last
  tolerant : s'.tolerant = s.tolerant
  reports : (s'.reader.reportsIn Diagnostic.withoutLine).Perm (told ++ s.reader.reportsIn .withoutLine)

/-- Two settled states that may differ in the symbols ahead, in the symbol accepted last, and in what has been reported:
that is, but for source lines, some diagnostics more in the second one. -/
structure Beside (more : List Diagnostic) (s t : ParserState) : Prop where
  ready : s.Ready
  ready' : t.Ready
  settled : firstToken s.reader.ahead ≠ .pragma
  settled' : firstToken t.reader.ahead ≠ .pragma
  last : s.reader.last = t.reader.last
  tolerant : s.tolerant = t.tolerant
  reports : (t.reader.reportsIn Diagnostic.withoutLine).Perm (more ++ s.reader.reportsIn .withoutLine)

/-- A settled state leads to itself. -/
theorem Leads.refl {s : ParserState} (hs : s.Ready) (hsettled : firstToken s.reader.ahead ≠ .pragma) : s.Leads [] s :=
  ⟨hs, hsettled, rfl, rfl, .refl _⟩

/-- What is told on the way adds up. -/
theorem Leads.trans {s t u : ParserState} {told told' : List Diagnostic} (h : s.Leads told t) (h' : t.Leads told' u) :
    s.Leads (told' ++ told) u :=
  ⟨h'.ready, h'.settled, h'.last.trans h.last, h'.tolerant.trans h.tolerant,
    h'.reports.trans (by rw [List.append_assoc]; exact h.reports.append_left _)⟩

namespace Beside

variable {more more' told : List Diagnostic} {s s' t t' : ParserState}

/-- If the first symbol ahead is the same, so is the next symbol. -/
theorem next (h : s.Beside more t) (hhead : s.reader.ahead.head? = t.reader.ahead.head?) :
    s.reader.next = t.reader.next := by
  rw [h.ready.ends.next_eq, h.ready'.ends.next_eq, List.headD_eq_head?_getD, List.headD_eq_head?_getD, hhead, h.last]

/-- What the second state reports beyond the first one, it has reported more. -/
theorem step (h : s.Beside more t) (hs : s.Leads told s') (ht : t.Leads (more' ++ told) t') :
    s'.Beside (more' ++ more) t' := by
  refine ⟨hs.ready, ht.ready, hs.settled, ht.settled, by rw [hs.last, ht.last, h.last],
    by rw [hs.tolerant, ht.tolerant, h.tolerant], ?_⟩
  have hreports : (t.reader.reportsIn Diagnostic.withoutLine).Perm (more ++ s.reader.reportsIn .withoutLine) := h.reports
  refine (ht.reports.trans (hreports.append_left _)).trans (.trans ?_ (hs.reports.symm.append_left _))
  rw [List.append_assoc, List.append_assoc]
  refine List.Perm.append_left _ ?_
  rw [← List.append_assoc, ← List.append_assoc]
  exact List.perm_append_comm.append_right _

/-- If the second state reports the same as the first one, there is no more than before. -/
theorem step_same (h : s.Beside more t) (hs : s.Leads told s') (ht : t.Leads told t') : s'.Beside more t' := by
  rw [← List.nil_append told] at ht
  exact h.step hs ht

end Beside

end ParserState

namespace Action

variable {α : Type} {more : List Diagnostic} {s t : ParserState}

/-- Whether what an action reports is about the next symbol. -/
def UsesNext : Action α → Prop
  | .reject _ | .warnNext _ => True
  | _ => False

/-- Whether what an action reports is about the symbol accepted last. -/
def UsesAccepted : Action α → Prop
  | .warnAccepted _ | .rejectClosing _ => True
  | _ => False

/-- What an action leads to. -/
theorem perform_leads (action : Action α) (hs : s.Ready) (hsettled : firstToken s.reader.ahead ≠ .pragma) :
    s.Leads ((action.tells s).map Diagnostic.withoutLine) (action.perform s).2 :=
  ⟨(action.perform_leaves hs).1, action.settled_perform hs hsettled, action.perform_last s, action.perform_tolerant s,
    action.perform_reportsIn Diagnostic.hidesLines_withoutLine s⟩

/-- Two states stay beside each other with every action, if the symbols are the same that it reports something about. -/
theorem perform_beside (action : Action α) (h : s.Beside more t)
    (hnext : action.UsesNext → s.reader.next = t.reader.next)
    (haccepted : action.UsesAccepted → s.accepted = t.accepted) :
    (action.perform s).2.Beside more (action.perform t).2 := by
  have htells : action.tells s = action.tells t := by
    cases action with
    | reject expected => simp only [tells, hnext trivial]
    | warnNext code => simp only [tells, hnext trivial, h.tolerant]
    | warnAccepted code => simp only [tells, haccepted trivial, h.tolerant]
    | rejectClosing closing => simp only [tells, haccepted trivial]
    | _ => rfl
  have ht := action.perform_leads h.ready' h.settled'
  rw [← htells] at ht
  exact h.step_same (action.perform_leads h.ready h.settled) ht

end Action

/-! ## At the same symbols -/

/-- Two states at the same symbols, at most `n` of them, of which the second one has reported some more. If there are
fewer, the symbols accepted last are the same, too. -/
structure ParserState.Resumed (more : List Diagnostic) (n : Nat) (s t : ParserState) : Prop
    extends s.Beside more t where
  ahead : s.reader.ahead = t.reader.ahead
  few : s.remaining ≤ n
  accepted : s.remaining < n → s.accepted = t.accepted

section

variable {more : List Diagnostic} {n : Nat} {s t : ParserState}

/-- At the same symbols an action yields the same, and leaves both states at the same symbols. -/
theorem Action.perform_resumed {α : Type} (action : Action α) (hn : 0 < n) (h : s.Resumed more n t)
    (haccepted : action.UsesAccepted → s.remaining < n) :
    (action.perform s).1 = (action.perform t).1 ∧ (action.perform s).2.Resumed more n (action.perform t).2 ∧
      (action.accepts = true ∨ s.remaining < n → (action.perform s).2.remaining < n) := by
  have hnext := h.next (by rw [h.ahead])
  have hbeside := action.perform_beside h.toBeside (fun _ => hnext) fun huses => h.accepted (haccepted huses)
  have hfew := h.few
  cases haccepts : action.accepts with
  | false =>
    have hahead := Action.ahead_perform haccepts h.ready h.settled
    have hahead' := Action.ahead_perform haccepts h.ready' h.settled'
    have hremaining : (action.perform s).2.remaining = s.remaining := congrArg List.length hahead
    refine ⟨Action.yields_congr haccepts h.ready h.ready' h.settled h.settled' (by rw [h.ahead]) fun _ => by rw [h.ahead],
      ⟨hbeside, by rw [hahead, hahead', h.ahead], by omega, fun hless => ?_⟩, fun hless => ?_⟩
    · rw [accepted_perform haccepts, accepted_perform haccepts]
      exact h.accepted (by omega)
    · rw [Bool.false_eq_true, false_or] at hless
      omega
  | true =>
    cases action with
    | accept =>
      have hleaves := (accept.perform_leaves h.ready).2
      have hleaves' := (accept.perform_leaves h.ready').2
      have hremaining : (accept.perform s).2.remaining < n := by
        have hsuffix := (withoutPragmas_suffix s.reader.ahead.tail).length_le
        rw [← hleaves.1, List.length_tail] at hsuffix
        have hcount : s.reader.ahead.length ≤ n := hfew
        have hrest : (accept.perform s).2.remaining ≤ s.reader.ahead.length - 1 := hsuffix
        omega
      refine ⟨?_, ⟨hbeside, ?_, hremaining.le, fun _ => ?_⟩, fun _ => hremaining⟩
      · show s.reader.read.current.lexeme = t.reader.read.current.lexeme
        rw [current_read, current_read, hnext]
      · rw [hleaves.1, hleaves'.1, h.ahead]
      · show s.reader.read.current = t.reader.read.current
        rw [current_read, current_read, hnext]
    | _ => cases haccepts

/-- So it is with an action that does as a discipline asks. Once a symbol has been accepted there are fewer ahead. -/
theorem Action.perform_resumed_of_asks {ctx : Context} {D : Discipline ctx} {α : Type} {v : AtHand} (action : Action α)
    (hn : 0 < n) (h : s.Resumed more n t ∧ (v.fresh → s.remaining < n)) (hasks : D.Asks action v) :
    (action.perform s).1 = (action.perform t).1 ∧ (action.perform s).2.Resumed more n (action.perform t).2 ∧
      ((v.after action (action.perform s).1).fresh → (action.perform s).2.remaining < n) := by
  have huses : action.UsesAccepted → s.remaining < n := by
    intro huses
    cases action with
    | warnAccepted code => exact h.2 hasks.2.2
    | rejectClosing closing => exact h.2 hasks.2
    | _ => exact huses.elim
  obtain ⟨hyields, hend, hremains⟩ := action.perform_resumed hn h.1 huses
  refine ⟨hyields, hend, fun hfresh => hremains ?_⟩
  cases action with
  | accept => exact .inl rfl
  | reject expected | warnNext code => exact hfresh.elim
  | _ => exact .inr (h.2 hfresh)

/-- Once fewer symbols are ahead, two runs of a script yield the same and end at the same symbols. -/
theorem Script.Advances.rejoined {body : Rule → Script Node} {limit limit' : Nat} {α : Type} {script : Script α} {a b : α}
    {s' t' : ParserState} (h : Advances body limit script s a s') (h' : Advances body limit' script t b t')
    (hst : s.Resumed more n t ∧ s.remaining < n) : a = b ∧ s'.Resumed more n t' ∧ s'.remaining < n := by
  refine h.lockstep (R := fun s t => s.Resumed more n t ∧ s.remaining < n) ?_ h' hst
  rintro γ action s t ⟨hst, hless⟩
  obtain ⟨hyields, hresumed, hremains⟩ := action.perform_resumed (Nat.zero_lt_of_lt hless) hst fun _ => hless
  exact ⟨hyields, hresumed, hremains (.inr hless)⟩

/-- Two runs of a script that obeys a discipline which is not strict yield the same from the same symbols, and end at the
same symbols: what is reported of the symbol accepted last comes after one has been accepted. -/
theorem Script.Advances.resumed {ctx : Context} {D : Discipline ctx} (hlax : ¬D.strict) (hn : 0 < n)
    {limit limit' : Nat} {α : Type} {script : Script α} {a b : α} {s' t' : ParserState} {v : AtHand}
    {Q : α → AtHand → Prop} (h : Advances (Rule.body ctx) limit script s a s')
    (h' : Advances (Rule.body ctx) limit' script t b t') (hs : s.Sees D v) (hfresh : v.fresh → s.remaining < n)
    (hQ : script.Ensures D.care v Q) (hst : s.Resumed more n t) : a = b ∧ s'.Resumed more n t' := by
  obtain ⟨hstrict, -⟩ | ⟨heq, w, hend, -⟩ := h.careful_lockstep
    (R := fun s t v => s.Resumed more n t ∧ (v.fresh → s.remaining < n))
    (fun action s t v _ hst hasks => action.perform_resumed_of_asks hn hst hasks) h' hs ⟨hst, hfresh⟩ hQ
  · exact (hlax hstrict).elim
  · exact ⟨heq, hend⟩

end

end Modula
