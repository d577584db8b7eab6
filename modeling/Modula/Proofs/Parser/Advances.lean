import Modula.Parser.Script
import Modula.Proofs.Parser.Action

/-!
# Parsing without bounds

A run of a script counts the rounds of its loops and how deep its calls nest, so that it is seen to end. `Advances` is
the same run without the counts, as a derivation: it is finite because every round of a loop but the last one takes a
symbol, and because a rule calls another one only after it has taken a symbol itself. Properties of runs are proved by
induction on such derivations.
-/

set_option autoImplicit false

namespace Modula

open SymbolReader

namespace Script

/-- A script goes from a state to a result and a state, in a rule that was called with so many symbols ahead. What an
action does first or last is to pass pragmas, and that has to end as well. -/
inductive Advances (body : Rule → Script Node) : Nat → {α : Type} → Script α → ParserState → α → ParserState → Prop
  | pure {limit : Nat} {α : Type} {a : α} {s : ParserState} : Advances body limit (.pure a) s a s
  | bind {limit : Nat} {α β : Type} {first : Script α} {next : α → Script β} {a : α} {b : β} {s s' s'' : ParserState}
      (hfirst : Advances body limit first s a s') (hnext : Advances body limit (next a) s' b s'') :
      Advances body limit (.bind first next) s b s''
  | act {limit : Nat} {α : Type} {action : Action α} {s : ParserState}
      (passes : Passes s.reader s.reader.skipPragmas) (passes' : Passes s.reader.read s.reader.read.skipPragmas) :
      Advances body limit (.act action) s (action.perform s).1 (action.perform s).2
  | call {limit : Nat} {rule : Rule} {node : Node} {s s' : ParserState} (less : s.remaining < limit)
      (hbody : Advances body s.remaining (body rule) s node s') : Advances body limit (.call rule) s node s'
  | done {limit : Nat} {α : Type} {a b : α} {step : α → Script (ForInStep α)} {s s' : ParserState}
      (hstep : Advances body limit (step a) s (.done b) s') : Advances body limit (.loop a step) s b s'
  | again {limit : Nat} {α : Type} {a b c : α} {step : α → Script (ForInStep α)} {s s' s'' : ParserState}
      (hstep : Advances body limit (step a) s (.yield b) s') (less : s'.remaining < s.remaining)
      (hrest : Advances body limit (.loop b step) s' c s'') : Advances body limit (.loop a step) s c s''

variable {body : Rule → Script Node} {limit : Nat} {α : Type} {script : Script α} {a : α} {s s' : ParserState}

/-! ## The runs of a script, part by part -/

/-- A script that does nothing stays in its state. -/
theorem Advances.of_pure {b : α} (h : Advances body limit (Pure.pure b) s a s') : a = b ∧ s' = s := by
  have h : Advances body limit (.pure b) s a s' := h
  cases h with
  | pure => exact ⟨rfl, rfl⟩

/-- A script goes through the end of its first part. -/
theorem Advances.of_bind {β : Type} {first : Script β} {next : β → Script α}
    (h : Advances body limit (first >>= next) s a s') :
    ∃ b t, Advances body limit first s b t ∧ Advances body limit (next b) t a s' := by
  have h : Advances body limit (.bind first next) s a s' := h
  cases h with
  | bind hfirst hnext => exact ⟨_, _, hfirst, hnext⟩

/-- A single action is performed. -/
theorem Advances.of_act {action : Action α} (h : Advances body limit (.act action) s a s') :
    a = (action.perform s).1 ∧ s' = (action.perform s).2 := by
  cases h with
  | act => exact ⟨rfl, rfl⟩

/-- A run that starts with an action is the rest of it from the state that the action leads to. -/
theorem Advances.of_act_bind {β : Type} {action : Action β} {next : β → Script α}
    (h : Advances body limit (.act action >>= next) s a s') :
    Advances body limit (next (action.perform s).1) (action.perform s).2 a s' := by
  obtain ⟨b, t, hfirst, hnext⟩ := h.of_bind
  obtain ⟨rfl, rfl⟩ := hfirst.of_act
  exact hnext

/-- A loop ends with its first round, or goes on with fewer symbols left. -/
theorem Advances.of_loop {step : α → Script (ForInStep α)} {init : α}
    (h : Advances body limit (.loop init step) s a s') :
    Advances body limit (step init) s (.done a) s' ∨ ∃ b t, Advances body limit (step init) s (.yield b) t ∧
      t.remaining < s.remaining ∧ Advances body limit (.loop b step) t a s' := by
  cases h with
  | done hstep => exact .inl hstep
  | again hstep less hrest => exact .inr ⟨_, _, hstep, less, hrest⟩

/-! ## What runs keep -/

/-- What every action keeps, a whole run keeps. -/
theorem Advances.keeps {K : ParserState → ParserState → Prop} (hrefl : ∀ s, K s s)
    (htrans : ∀ s t u, K s t → K t u → K s u)
    (hact : ∀ {β : Type} (action : Action β) (s : ParserState), K s (action.perform s).2)
    (h : Advances body limit script s a s') : K s s' := by
  induction h with
  | pure => exact hrefl _
  | bind hfirst hnext ihfirst ihnext => exact htrans _ _ _ ihfirst ihnext
  | act passes passes' => exact hact _ _
  | call less hbody ih => exact ih
  | done hstep ih => exact ih
  | again hstep less hrest ihstep ihrest => exact htrans _ _ _ ihstep ihrest

/-- Once something is so that actions do not change, it stays so to the end of a run. -/
theorem Advances.stays {P : ParserState → Prop}
    (hact : ∀ {β : Type} (action : Action β) (s : ParserState), P s → P (action.perform s).2)
    (h : Advances body limit script s a s') : P s → P s' :=
  h.keeps (K := fun s s' => P s → P s') (fun _ hs => hs) (fun _ _ _ h₁ h₂ hs => h₂ (h₁ hs)) hact

end Script

end Modula
