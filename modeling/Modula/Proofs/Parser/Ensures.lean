import Modula.Proofs.Parser.Advances

/-!
# Reasoning about scripts

A proof about a parse looks at the state through a view of it, and says of each action and each call what it takes to
get from one view to the next. Such an `Abstraction` gives every script a precondition for a postcondition, by
recursion on the script (`Ensures`). If the actions and the calls do what the abstraction says, so does every run
(`Ensures.holds`), and two runs that the actions keep related stay so (`Ensures.lockstep`).
-/

set_option autoImplicit false

namespace Modula

/-- What actions and calls need of a view to establish a postcondition, and how the view has to change in each round
of a loop that goes on. -/
structure Abstraction (V : Type) where
  act {α : Type} : Action α → V → (α → V → Prop) → Prop
  call : Rule → V → (Node → V → Prop) → Prop
  progress : V → V → Prop
  act_mono {α : Type} {action : Action α} {v : V} {P Q : α → V → Prop} :
    (∀ a w, P a w → Q a w) → act action v P → act action v Q
  call_mono {rule : Rule} {v : V} {P Q : Node → V → Prop} :
    (∀ a w, P a w → Q a w) → call rule v P → call rule v Q

namespace Script

variable {V : Type} {A : Abstraction V}

/-- A script establishes a postcondition from a view on. A loop does so by an invariant. -/
def Ensures (A : Abstraction V) : {α : Type} → Script α → V → (α → V → Prop) → Prop
  | _, .pure a, v, Q => Q a v
  | _, .bind first next, v, Q => first.Ensures A v fun a w => (next a).Ensures A w Q
  | _, .act action, v, Q => A.act action v Q
  | _, .call rule, v, Q => A.call rule v Q
  | α, .loop init step, v, Q =>
    ∃ inv : α → V → Prop, inv init v ∧ ∀ a v, inv a v → (step a).Ensures A v fun
      | .done b, w => Q b w
      | .yield b, w => inv b w ∧ A.progress v w

variable {α β : Type} {v : V}

/-- What is ensured may be said with less. -/
theorem Ensures.mono {script : Script α} {P Q : α → V → Prop} (hPQ : ∀ a w, P a w → Q a w)
    (h : script.Ensures A v P) : script.Ensures A v Q := by
  induction script generalizing v with
  | pure a => exact hPQ _ _ h
  | bind first next ihfirst ihnext => exact ihfirst (fun a w hnext => ihnext a hPQ hnext) h
  | act action => exact A.act_mono hPQ h
  | call rule => exact A.call_mono hPQ h
  | loop init step ih =>
    obtain ⟨inv, hinit, hstep⟩ := h
    refine ⟨inv, hinit, fun a v ha => ih a ?_ (hstep a v ha)⟩
    rintro (b | b) w hb
    · exact hPQ b w hb
    · exact hb

/-- Scripts that only yield are written with the function of monads. -/
@[simp] theorem pure_eq (a : α) : Script.pure a = (Pure.pure a : Script α) := rfl

/-- A script that does nothing ensures what is so already. -/
@[simp] theorem ensures_pure {a : α} {Q : α → V → Prop} : (Pure.pure a : Script α).Ensures A v Q ↔ Q a v := Iff.rfl

/-- A script ensures what its second part does from wherever the first one may lead. -/
@[simp] theorem ensures_bind {first : Script α} {next : α → Script β} {Q : β → V → Prop} :
    (first >>= next).Ensures A v Q ↔ first.Ensures A v fun a w => (next a).Ensures A w Q := Iff.rfl

/-- Both branches have to ensure it. -/
theorem ensures_ite {p : Prop} [Decidable p] {c d : Script α} {Q : α → V → Prop} :
    (if p then c else d).Ensures A v Q ↔ (p → c.Ensures A v Q) ∧ (¬p → d.Ensures A v Q) := by
  split <;> simp_all

/-- What an abstraction ensures holds of every run, if its actions and calls do what it says of them. The view stands
for the state as `Views` says; once a run is lost it may be anything. -/
theorem Ensures.holds {body : Rule → Script Node} {limit : Nat} {script : Script α} {a : α} {s s' : ParserState}
    {Views : ParserState → V → Prop} {Lost : ParserState → Prop}
    (hact : ∀ {γ : Type} (action : Action γ) (s : ParserState) (v : V) (Q : γ → V → Prop), Views s v →
      A.act action v Q → Lost (action.perform s).2 ∨ ∃ w, Views (action.perform s).2 w ∧ Q (action.perform s).1 w)
    (hlost : ∀ {γ : Type} (action : Action γ) (s : ParserState), Lost s → Lost (action.perform s).2)
    (hcall : ∀ (rule : Rule) (v : V) (Q : Node → V → Prop), A.call rule v Q → (body rule).Ensures A v Q)
    (h : Advances body limit script s a s') {Q : α → V → Prop} (hv : Views s v) (hQ : script.Ensures A v Q) :
    Lost s' ∨ ∃ w, Views s' w ∧ Q a w := by
  induction h generalizing v with
  | pure => exact .inr ⟨v, hv, hQ⟩
  | bind hfirst hnext ihfirst ihnext =>
    obtain hlost' | ⟨w, hw, hnextQ⟩ := ihfirst hv hQ
    · exact .inl (hnext.stays hlost hlost')
    · exact ihnext hw hnextQ
  | act passes passes' => exact hact _ _ v Q hv hQ
  | call less hbody ih => exact ih hv (hcall _ v Q hQ)
  | done hstep ih =>
    obtain ⟨inv, hinit, hround⟩ := hQ
    exact ih hv (hround _ v hinit)
  | again hstep less hrest ihstep ihrest =>
    obtain ⟨inv, hinit, hround⟩ := hQ
    obtain hlost' | ⟨w, hw, hinv, -⟩ := ihstep hv (hround _ v hinit)
    · exact .inl (hrest.stays hlost hlost')
    · exact ihrest hw ⟨inv, hinv, hround⟩

/-- Two runs of a script keep a relation between their states and a view of both, and yield the same, if the actions
that the script is said to take keep the relation and yield the same. Once the first run is lost nothing is said. -/
theorem Ensures.lockstep {body : Rule → Script Node} {limit limit' : Nat} {script : Script α} {a b : α}
    {s s' t t' : ParserState} {R : ParserState → ParserState → V → Prop} {Lost : ParserState → Prop}
    (hact : ∀ {γ : Type} (action : Action γ) (s t : ParserState) (v : V) (Q : γ → V → Prop), R s t v →
      A.act action v Q → Lost (action.perform s).2 ∨ (action.perform s).1 = (action.perform t).1 ∧
        ∃ w, R (action.perform s).2 (action.perform t).2 w ∧ Q (action.perform s).1 w)
    (hlost : ∀ {γ : Type} (action : Action γ) (s : ParserState), Lost s → Lost (action.perform s).2)
    (hcall : ∀ (rule : Rule) (v : V) (Q : Node → V → Prop), A.call rule v Q → (body rule).Ensures A v Q)
    (h : Advances body limit script s a s') (h' : Advances body limit' script t b t') {Q : α → V → Prop}
    (hst : R s t v) (hQ : script.Ensures A v Q) : Lost s' ∨ a = b ∧ ∃ w, R s' t' w ∧ Q a w := by
  induction h generalizing limit' t t' v with
  | pure =>
    cases h' with
    | pure => exact .inr ⟨rfl, v, hst, hQ⟩
  | bind hfirst hnext ihfirst ihnext =>
    cases h' with
    | bind hfirst' hnext' =>
      obtain hlost' | ⟨rfl, w, hmiddle, hnextQ⟩ := ihfirst hfirst' hst hQ
      · exact .inl (hnext.stays hlost hlost')
      · exact ihnext hnext' hmiddle hnextQ
  | act passes passes' =>
    cases h' with
    | act => exact hact _ _ _ v Q hst hQ
  | call less hbody ih =>
    cases h' with
    | call less' hbody' => exact ih hbody' hst (hcall _ v Q hQ)
  | done hstep ih =>
    obtain ⟨inv, hinit, hround⟩ := hQ
    cases h' with
    | done hstep' =>
      obtain hlost' | ⟨heq, w, hend, hdone⟩ := ih hstep' hst (hround _ v hinit)
      · exact .inl hlost'
      · exact .inr ⟨ForInStep.done.inj heq, w, hend, hdone⟩
    | again hstep' less' hrest' =>
      -- one loop cannot go on where the other one ends, for their rounds yield the same
      obtain hlost' | ⟨heq, -⟩ := ih hstep' hst (hround _ v hinit)
      · exact .inl hlost'
      · cases heq
  | again hstep less hrest ihstep ihrest =>
    obtain ⟨inv, hinit, hround⟩ := hQ
    cases h' with
    | done hstep' =>
      obtain hlost' | ⟨heq, -⟩ := ihstep hstep' hst (hround _ v hinit)
      · exact .inl (hrest.stays hlost hlost')
      · cases heq
    | again hstep' less' hrest' =>
      obtain hlost' | ⟨heq, w, hmiddle, hinv, -⟩ := ihstep hstep' hst (hround _ v hinit)
      · exact .inl (hrest.stays hlost hlost')
      · obtain rfl := ForInStep.yield.inj heq
        exact ihrest hrest' hmiddle ⟨inv, hinv, hround⟩

end Script

end Modula
