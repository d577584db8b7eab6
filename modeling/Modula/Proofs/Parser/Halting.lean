import Modula.Proofs.Parser.Ensures

/-!
# Halting

Whether a run ends depends on the symbols ahead only. `halting` asks of a script that each round of a loop that goes on
leaves fewer symbols than it found, and that a rule is called with fewer symbols ahead than a limit. If the bodies of
all rules do this, the limit being what they find themselves, then no bound of a run is ever reached
(`Ensures.completes`).
-/

set_option autoImplicit false

namespace Modula

open SymbolReader

/-- What a run that ends has to do with the symbols ahead: nothing if it acts, and to have fewer than a limit if it
calls. What a call leaves is some of what it found. -/
def halting (limit : Nat) : Abstraction (List Symbol) where
  act action ahead Q := ∀ a left, action.leaves ahead a left → Q a left
  call _ ahead Q := ahead.length < limit ∧ ∀ node left, left <:+ ahead → Q node left
  progress ahead left := left.length < ahead.length
  act_mono hPQ h a left hleaves := hPQ a left (h a left hleaves)
  call_mono hPQ h := ⟨h.1, fun node left hleft => hPQ node left (h.2 node left hleft)⟩

/-- The symbols that an action leaves are the last ones of those it found. -/
theorem Action.leaves.suffix {α : Type} {action : Action α} {ahead left : List Symbol} {a : α}
    (h : action.leaves ahead a left) : left <:+ ahead := by
  cases action with
  | lookahead | qualifies =>
    rw [h.1]
    exact withoutPragmas_suffix ahead
  | accept =>
    rw [h.1]
    exact (withoutPragmas_suffix ahead.tail).trans (List.tail_suffix ahead)
  | enter p =>
    obtain rfl | rfl := h
    · exact List.suffix_refl _
    · exact withoutPragmas_suffix ahead
  | build node => exact h.1 ▸ List.suffix_refl _
  | reject expected | warnNext code | warnAccepted code | rejectClosing closing | skipped n => exact h ▸ List.suffix_refl _

/-- Actions reach no bound. -/
theorem Action.exhausted_perform {α : Type} (action : Action α) (s : ParserState) :
    (action.perform s).2.exhausted = s.exhausted := by
  cases action with
  | lookahead | accept | reject expected | rejectClosing closing => rfl
  | qualifies =>
    simp only [perform]
    split <;> rfl
  | enter p =>
    simp only [perform]
    split <;> rfl
  | warnNext code | warnAccepted code =>
    simp only [perform, ParserState.warn]
    split <;> rfl
  | skipped n =>
    simp only [perform]
    split <;> rfl
  | build node =>
    cases node with
    | ok node => rfl
    | error e =>
      simp only [perform]
      split
      · rfl
      · split <;> rfl

namespace Script

variable {body : Rule → Script Node} {limit : Nat} {α : Type}

/-- A run whose result is what the same run without bounds comes to. It keeps the state ready, leaves some of the
symbols ahead, establishes a postcondition, and reaches no bound. -/
structure Completes (body : Rule → Script Node) (limit : Nat) {α : Type} (script : Script α) (s : ParserState)
    (Q : α → List Symbol → Prop) (result : α × ParserState) : Prop where
  advances : Advances body limit script s result.1 result.2
  ready : result.2.Ready
  suffix : result.2.reader.ahead <:+ s.reader.ahead
  post : Q result.1 result.2.reader.ahead
  bounded : result.2.exhausted = s.exhausted

/-- A loop completes if each of its rounds does, and if it may go on for more rounds than there are symbols ahead. -/
theorem iterate_completes {callRule : Rule → ParserState → Node × ParserState} {step : α → Script (ForInStep α)}
    {inv Q : α → List Symbol → Prop}
    (hstep : ∀ a s, s.Ready → inv a s.reader.ahead →
      Completes body limit (step a) s
        (fun
          | .done b, left => Q b left
          | .yield b, left => inv b left ∧ left.length < s.reader.ahead.length)
        ((step a).run callRule s))
    (n : Nat) (a : α) (s : ParserState) (hn : s.remaining < n) (hs : s.Ready) (hinv : inv a s.reader.ahead) :
    Completes body limit (.loop a step) s Q (iterate (fun a s => (step a).run callRule s) n a s) := by
  induction n generalizing a s with
  | zero => omega
  | succ n ih =>
    have hround := hstep a s hs hinv
    unfold iterate
    generalize (step a).run callRule s = result at hround
    obtain ⟨result, s'⟩ := result
    cases result with
    | done b => exact ⟨.done hround.advances, hround.ready, hround.suffix, hround.post, hround.bounded⟩
    | yield b =>
      have hless : s'.remaining < s.remaining := hround.post.2
      have hrest := ih b s' (by omega) hround.ready hround.post.1
      exact ⟨.again hround.advances hless hrest.advances, hrest.ready, hrest.suffix.trans hround.suffix, hrest.post,
        hrest.bounded.trans hround.bounded⟩

/-- A script completes if calls of rules do as long as there are fewer symbols ahead than the limit. -/
theorem Ensures.completes_of_calls {callRule : Rule → ParserState → Node × ParserState}
    (hcall : ∀ rule s, s.Ready → s.remaining < limit →
      Completes body limit (.call rule) s (fun _ _ => True) (callRule rule s))
    {script : Script α} {s : ParserState} {Q : α → List Symbol → Prop} (hs : s.Ready)
    (h : script.Ensures (halting limit) s.reader.ahead Q) : Completes body limit script s Q (script.run callRule s) := by
  induction script generalizing s with
  | pure a => exact ⟨.pure, hs, List.suffix_refl _, h, rfl⟩
  | bind first next ihfirst ihnext =>
    have hfirst := ihfirst hs h
    have hnext := ihnext _ hfirst.ready hfirst.post
    exact ⟨.bind hfirst.advances hnext.advances, hnext.ready, hnext.suffix.trans hfirst.suffix, hnext.post,
      hnext.bounded.trans hfirst.bounded⟩
  | act action =>
    obtain ⟨hready, hleaves⟩ := action.perform_leaves hs
    exact ⟨.act hs.passes.1 hs.passes.2, hready, hleaves.suffix, h _ _ hleaves, action.exhausted_perform s⟩
  | call rule =>
    have hcalled := hcall rule s hs h.1
    exact ⟨hcalled.advances, hcalled.ready, hcalled.suffix, h.2 _ _ hcalled.suffix, hcalled.bounded⟩
  | loop init step ih =>
    obtain ⟨inv, hinit, hround⟩ := h
    have henough := hs.enough
    refine iterate_completes ?_ _ init s (by unfold ParserState.remaining; omega) hs hinit
    intro a t ht ha
    refine (ih a ht (Ensures.mono ?_ (hround a _ ha)))
    rintro (b | b) left hb <;> exact hb

/-- A call of a rule completes if the bodies of all rules halt and calls may nest deeper than there are symbols
ahead. -/
theorem call_completes (hbody : ∀ rule ahead, (body rule).Ensures (halting ahead.length) ahead fun _ _ => True)
    (depth : Nat) (rule : Rule) (s : ParserState) (hs : s.Ready) (hless : s.remaining < limit)
    (hdepth : s.remaining < depth) :
    Completes body limit (.call rule) s (fun _ _ => True) (Rule.run body depth rule s) := by
  induction depth generalizing limit rule s with
  | zero => omega
  | succ depth ih =>
    have hcall : ∀ (rule : Rule) (t : ParserState), t.Ready → t.remaining < s.remaining →
        Completes body s.remaining (.call rule) t (fun _ _ => True) (Rule.run body depth rule t) :=
      fun rule t ht hless => ih rule t ht hless (by omega)
    have hrun := (hbody rule s.reader.ahead).completes_of_calls hcall hs
    exact ⟨.call hless hrun.advances, hrun.ready, hrun.suffix, trivial, hrun.bounded⟩

/-- A script completes if it halts, the bodies of all rules halt, and calls may nest as deep as there are symbols. -/
theorem Ensures.completes (hbody : ∀ rule ahead, (body rule).Ensures (halting ahead.length) ahead fun _ _ => True)
    {script : Script α} {s : ParserState} {Q : α → List Symbol → Prop} (hs : s.Ready) {depth : Nat}
    (hdepth : limit ≤ depth) (h : script.Ensures (halting limit) s.reader.ahead Q) :
    Completes body limit script s Q (script.run (Rule.run body depth) s) :=
  h.completes_of_calls (fun rule t ht hless => call_completes hbody depth rule t ht hless (by omega)) hs

end Script

end Modula
