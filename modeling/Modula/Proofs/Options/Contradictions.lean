import Mathlib.Data.List.Induction
import Modula.Options.Invocation

/-!
# Contradicting arguments

A command line is refused if one of its arguments is refused by itself, or if two of them contradict each other, and
for no other reason. Most contradictions are found when the second of the two arguments is read; that a qualifier does
not go with the extended dialect is found at the end. What has been gathered of a command line is read off its
arguments (`Gathered.of`), so that one step says what each argument adds to it and whom it blames
(`accept_of`), and the whole line follows by induction (`gather_spec`, `ofArguments_spec`). The main result is that two
arguments are always enough to see why a line is refused, and that the blame does not depend on the others
(`ofArguments_pairwise`).
-/

set_option autoImplicit false

namespace Modula

namespace Argument

/-- Two arguments of which the second one is refused when it is read. -/
def Clashes : Argument → Argument → Prop
  | .dialect d, .dialect d' => d ≠ d'
  | .qualifier q, .qualifier q' => q ≠ q'
  | .sole p, .sole p' => p ≠ p'
  | .sole _, .product _ _ | .product _ _, .sole _ => True
  | .product p on, .product p' on' => p = p' ∧ on ≠ on'
  | .identifiers m, .identifiers m' => m ≠ m'
  | .comments m, .comments m' => m ≠ m'
  | .capability c on, .capability c' on' => c = c' ∧ on ≠ on'
  | _, _ => False

/-- The extended dialect and a qualifier, which are refused together at the end. -/
def Opposes : Argument → Argument → Prop
  | .dialect d, .qualifier _ => d = .ext
  | _, _ => False

/-- Arguments clash whichever comes first. -/
theorem Clashes.symm {a b : Argument} (h : a.Clashes b) : b.Clashes a := by
  cases a <;> cases b <;> simp_all [Clashes, eq_comm]

/-- No argument clashes with itself, so none may not be repeated. -/
theorem not_clashes_self (a : Argument) : ¬a.Clashes a := by
  cases a <;> simp [Clashes]

/-- An argument that opposes another one comes before it or after it, but does not clash with it. -/
theorem Opposes.not_clashes {a b : Argument} (h : a.Opposes b) : ¬a.Clashes b ∧ ¬b.Clashes a := by
  cases a <;> cases b <;> simp_all [Clashes, Opposes]

/-- Only one order of two arguments is opposed. -/
theorem Opposes.not_opposes {a b : Argument} (h : a.Opposes b) : ¬b.Opposes a := by
  cases a <;> cases b <;> simp_all [Opposes]

/-- A qualifier is opposed after the extended dialect, and nothing else is. -/
theorem opposes_iff {a b : Argument} : a.Opposes b ↔ ∃ q, b = .qualifier q ∧ a = .dialect .ext := by
  cases a <;> cases b <;> simp [Opposes]

/-! ## Kinds of arguments -/

/-- The information that an argument requests. -/
@[simp] def info? : Argument → Option InfoRequest
  | .info r => some r
  | _ => none

/-- The dialect that an argument chooses. -/
@[simp] def dialect? : Argument → Option Dialect
  | .dialect d => some d
  | _ => none

/-- The qualifier that an argument gives. -/
@[simp] def qualifier? : Argument → Option Qualifier
  | .qualifier q => some q
  | _ => none

/-- The product that an argument makes the only one. -/
@[simp] def sole? : Argument → Option SoleProduct
  | .sole p => some p
  | _ => none

/-- The product that an argument turns on or off. -/
@[simp] def product? : Argument → Option (Product × Bool)
  | .product p on => some (p, on)
  | _ => none

/-- The way identifiers are translated that an argument chooses. -/
@[simp] def identifiers? : Argument → Option IdentifierMode
  | .identifiers m => some m
  | _ => none

/-- What becomes of comments by an argument. -/
@[simp] def comments? : Argument → Option CommentMode
  | .comments m => some m
  | _ => none

/-- The capability that an argument turns on or off. -/
@[simp] def capability? : Argument → Option (Capability × Bool)
  | .capability c on => some (c, on)
  | _ => none

/-- The switch of diagnostics that an argument turns on. -/
@[simp] def diagnostics? : Argument → Option DiagnosticSwitch
  | .diagnostics s => some s
  | _ => none

/-- Whether an argument names a source file. -/
@[simp] def source? : Argument → Option Unit
  | .sourceFile => some ()
  | _ => none

section

variable {x : Argument}

/-- A dialect is chosen by its own argument. -/
theorem dialect?_eq_some (x : Argument) (d : Dialect) : dialect? x = some d ↔ x = .dialect d := by
  cases x <;> simp

/-- So is a qualifier. -/
theorem qualifier?_eq_some (x : Argument) (q : Qualifier) : qualifier? x = some q ↔ x = .qualifier q := by
  cases x <;> simp

/-- So is a product that is to be the only one. -/
theorem sole?_eq_some (x : Argument) (p : SoleProduct) : sole? x = some p ↔ x = .sole p := by
  cases x <;> simp

/-- So is a product that is turned on or off. -/
theorem product?_eq_some (x : Argument) (c : Product × Bool) : product? x = some c ↔ x = .product c.1 c.2 := by
  cases x <;> simp [Prod.ext_iff]

/-- So is the way identifiers are translated. -/
theorem identifiers?_eq_some (x : Argument) (m : IdentifierMode) : identifiers? x = some m ↔ x = .identifiers m := by
  cases x <;> simp

/-- So is what becomes of comments. -/
theorem comments?_eq_some (x : Argument) (m : CommentMode) : comments? x = some m ↔ x = .comments m := by
  cases x <;> simp

/-- So is a capability that is turned on or off. -/
theorem capability?_eq_some (x : Argument) (c : Capability × Bool) : capability? x = some c ↔ x = .capability c.1 c.2 := by
  cases x <;> simp [Prod.ext_iff]

/-- Nothing clashes with a request for information. -/
@[simp] theorem not_clashes_info {r : InfoRequest} : ¬x.Clashes (.info r) := by
  cases x <;> exact id

/-- Nothing clashes with a switch of diagnostics. -/
@[simp] theorem not_clashes_diagnostics {s : DiagnosticSwitch} : ¬x.Clashes (.diagnostics s) := by
  cases x <;> exact id

/-- Nothing clashes with the name of a source file. -/
@[simp] theorem not_clashes_sourceFile : ¬x.Clashes .sourceFile := by
  cases x <;> exact id

/-- Nothing clashes with an argument that is not known. -/
@[simp] theorem not_clashes_unknown : ¬x.Clashes .unknown := by
  cases x <;> exact id

/-- Two dialects clash. -/
theorem clashes_dialect {d : Dialect} : x.Clashes (.dialect d) ↔ ∃ made, x = .dialect made ∧ made ≠ d := by
  cases x <;> simp [Clashes]

/-- Two qualifiers clash. -/
theorem clashes_qualifier {q : Qualifier} : x.Clashes (.qualifier q) ↔ ∃ made, x = .qualifier made ∧ made ≠ q := by
  cases x <;> simp [Clashes]

/-- A product that is to be the only one clashes with another such one, and with any that is turned on or off. -/
theorem clashes_sole {p : SoleProduct} :
    x.Clashes (.sole p) ↔ (∃ made, x = .sole made ∧ made ≠ p) ∨ ∃ product on, x = .product product on := by
  cases x <;> simp [Clashes]

/-- A product that is turned on clashes with itself turned off, and with any that is to be the only one. -/
theorem clashes_product {p : Product} {on : Bool} :
    x.Clashes (.product p on) ↔ (∃ made, x = .product p made ∧ made ≠ on) ∨ ∃ product, x = .sole product := by
  cases on <;> cases x <;> simp [Clashes]

/-- Two ways to translate identifiers clash. -/
theorem clashes_identifiers {m : IdentifierMode} : x.Clashes (.identifiers m) ↔ ∃ made, x = .identifiers made ∧ made ≠ m := by
  cases x <;> simp [Clashes]

/-- Two fates of comments clash. -/
theorem clashes_comments {m : CommentMode} : x.Clashes (.comments m) ↔ ∃ made, x = .comments made ∧ made ≠ m := by
  cases x <;> simp [Clashes]

/-- A capability that is turned on clashes with itself turned off. -/
theorem clashes_capability {c : Capability} {on : Bool} :
    x.Clashes (.capability c on) ↔ ∃ made, x = .capability c made ∧ made ≠ on := by
  cases on <;> cases x <;> simp [Clashes]

end

/-- The arguments of one kind, with what they say. -/
def picked {α : Type} (pick : Argument → Option α) (args : List String) : List (α × String) :=
  args.filterMap fun arg => (pick (classify arg)).map fun value => (value, arg)

section

variable {α : Type} {pick : Argument → Option α} {args : List String} {arg : String}

/-- What is picked of some arguments stands for one of them. -/
@[simp] theorem mem_picked {c : α × String} : c ∈ picked pick args ↔ c.2 ∈ args ∧ pick (classify c.2) = some c.1 := by
  obtain ⟨value, arg⟩ := c
  simp only [picked, List.mem_filterMap, Option.map_eq_some_iff, Prod.mk.injEq]
  constructor
  · rintro ⟨arg', harg, value', hvalue, rfl, rfl⟩
    exact ⟨harg, hvalue⟩
  · rintro ⟨harg, hvalue⟩
    exact ⟨arg, harg, value, hvalue, rfl, rfl⟩

/-- An argument more adds what is picked of it. -/
theorem picked_concat : picked pick (args ++ [arg]) = picked pick args ++
    ((pick (classify arg)).map fun value => (value, arg)).toList := by
  cases h : pick (classify arg) <;> simp [picked, h]

end

end Argument

open Argument

/-- Why an argument is refused by itself. -/
def Argument.refusal? (arg : String) : Option OptionsError :=
  match classify arg with
  | .unknown => some (.invalidOption arg)
  | .sourceFile => if Gathered.hasSourceSuffix arg then none else some (.invalidFilename arg)
  | _ => none

/-- Arguments none of which is refused by itself or clashes with another one. -/
structure Consistent (args : List String) : Prop where
  accepted : ∀ arg ∈ args, refusal? arg = none
  compatible : ∀ a ∈ args, ∀ b ∈ args, ¬(classify a).Clashes (classify b)

/-- The first argument of some clashes with the last one, or the last one is refused by itself. -/
def Refuses (args : List String) (arg : String) (e : OptionsError) : Prop :=
  refusal? arg = some e ∨ ∃ first ∈ args, (classify first).Clashes (classify arg) ∧ e = .conflict first arg

namespace Consistent

variable {args : List String} {arg : String}

/-- Without arguments there is no contradiction. -/
theorem nil : Consistent [] := ⟨by simp, by simp⟩

/-- One more argument is consistent with the others if it clashes with none of them. -/
theorem concat (h : Consistent args) (harg : refusal? arg = none)
    (hnew : ∀ a ∈ args, ¬(classify a).Clashes (classify arg)) : Consistent (args ++ [arg]) := by
  refine ⟨?_, ?_⟩
  · rintro a ha
    obtain ha | rfl := by simpa using ha
    · exact h.accepted a ha
    · exact harg
  · simp only [List.mem_append, List.mem_singleton]
    rintro a (ha | rfl) b (hb | rfl)
    · exact h.compatible a ha b hb
    · exact hnew a ha
    · exact fun hclash => hnew b hb hclash.symm
    · exact not_clashes_self _

end Consistent

/-- Consistent arguments that make the same choice choose the same. -/
theorem Consistent.same {α : Type} {make : α → Argument} {pick : Argument → Option α} {args : List String}
    (h : Consistent args) (hpick : ∀ x v, pick x = some v ↔ x = make v) (hdiffer : ∀ v w, v ≠ w → (make v).Clashes (make w)) :
    ∀ c ∈ picked pick args, ∀ c' ∈ picked pick args, c.1 = c'.1 := by
  intro c hc c' hc'
  rw [mem_picked, hpick] at hc hc'
  by_contra hne
  refine h.compatible c.2 hc.1 c'.2 hc'.1 ?_
  rw [hc.2, hc'.2]
  exact hdiffer _ _ hne

/-! ## What has been gathered -/

/-- What some arguments have settled, if none of them was refused. -/
def Gathered.of (args : List String) : Gathered :=
  { info := (picked info? args).head?.map (·.1)
    dialect := (picked dialect? args).head?
    qualifier := (picked qualifier? args).head?
    sole := (picked sole? args).head?
    products := (picked product? args).map fun c => ⟨c.1.1, c.1.2, c.2⟩
    identifiers := (picked identifiers? args).head?
    comments := (picked comments? args).head?
    capabilities := (picked capability? args).map fun c => ⟨c.1.1, c.1.2, c.2⟩
    diagnostics := (picked diagnostics? args).map (·.1)
    sources := (picked source? args).map (·.2) }

/-- Making a choice keeps the first argument that made it. It is refused if that one chose something else, and
otherwise all arguments before chose the same. -/
theorem Choice.make_spec {α : Type} [DecidableEq α] {choices : List (α × String)} (value : α) (arg : String)
    (hsame : ∀ c ∈ choices, ∀ c' ∈ choices, c.1 = c'.1) :
    match Choice.make choices.head? value arg with
    | .ok choice => choice = (choices ++ [(value, arg)]).head? ∧ ∀ c ∈ choices, c.1 = value
    | .error e => ∃ c ∈ choices, c.1 ≠ value ∧ e = .conflict c.2 arg := by
  cases choices with
  | nil => simp [Choice.make]
  | cons c choices =>
    obtain ⟨made, first⟩ := c
    by_cases hmade : made = value
    · simpa [Choice.make, hmade] using fun a b hab => (hsame (a, b) (by simp [hab]) (made, first) (by simp)).trans hmade
    · simp [Choice.make, hmade]

/-- Switching a setting keeps all arguments that switched one. It is refused if one of them switched the same setting
the other way. -/
theorem Toggle.add_spec {α : Type} [DecidableEq α] (toggles : List (Toggle α)) (subject : α) (on : Bool) (arg : String) :
    match Toggle.add toggles subject on arg with
    | .ok toggles' => toggles' = toggles ++ [⟨subject, on, arg⟩] ∧ ∀ t ∈ toggles, t.subject = subject → t.on = on
    | .error e => ∃ t ∈ toggles, t.subject = subject ∧ t.on ≠ on ∧ e = .conflict t.arg arg := by
  unfold Toggle.add
  cases hfind : toggles.find? (fun t => t.subject = subject ∧ t.on ≠ on) with
  | none =>
    refine ⟨rfl, fun t ht hsubject => ?_⟩
    simpa [hsubject] using List.find?_eq_none.mp hfind t ht
  | some t =>
    have ht : t.subject = subject ∧ t.on ≠ on := by simpa using List.find?_some hfind
    exact ⟨t, List.mem_of_find?_eq_some hfind, ht.1, ht.2, rfl⟩

section

variable {args : List String} {arg : String}

/-- What a step of resolving has to lead to: either the argument is added to the others, or there is one to blame. -/
def Adds (args : List String) (arg : String) : Except OptionsError Gathered → Prop
  | .ok g => g = .of (args ++ [arg]) ∧ Consistent (args ++ [arg])
  | .error e => Refuses args arg e

/-- An argument that clashes with no other one is added. -/
theorem adds_alone {g : Gathered} (h : Consistent args) (harg : refusal? arg = none)
    (halone : ∀ x : Argument, ¬x.Clashes (classify arg)) (hset : g = .of (args ++ [arg])) : Adds args arg (.ok g) :=
  ⟨hset, h.concat harg fun a _ => halone (classify a)⟩

/-- An argument that makes a choice is added if the arguments before it chose the same, and only they can clash
with it. -/
theorem adds_choice {α : Type} [DecidableEq α] {make : α → Argument} {pick : Argument → Option α} {value : α}
    {set : Choice α → Gathered} (h : Consistent args) (hvalue : classify arg = make value) (harg : refusal? arg = none)
    (hpick : ∀ x v, pick x = some v ↔ x = make v) (hdiffer : ∀ v w, v ≠ w → (make v).Clashes (make w))
    (hclash : ∀ a ∈ args, (classify a).Clashes (make value) → ∃ made, classify a = make made ∧ made ≠ value)
    (hset : set (picked pick (args ++ [arg])).head? = .of (args ++ [arg])) :
    Adds args arg (do return set (← Choice.make (picked pick args).head? value arg)) := by
  have hmem : ∀ c ∈ picked pick args, c.2 ∈ args ∧ classify c.2 = make c.1 := by
    intro c hc
    rwa [mem_picked, hpick] at hc
  have hmake := Choice.make_spec value arg (h.same hpick hdiffer)
  cases hmade : Choice.make (picked pick args).head? value arg with
  | error e =>
    rw [hmade] at hmake
    obtain ⟨c, hc, hne, rfl⟩ := hmake
    obtain ⟨hc, hmade⟩ := hmem c hc
    refine .inr ⟨c.2, hc, ?_, rfl⟩
    rw [hmade, hvalue]
    exact hdiffer _ _ hne
  | ok choice =>
    rw [hmade] at hmake
    obtain ⟨rfl, hall⟩ := hmake
    refine ⟨?_, h.concat harg fun a ha hno => ?_⟩
    · rw [← hset, picked_concat, (hpick _ _).mpr hvalue]
      rfl
    · obtain ⟨made, hmade, hne⟩ := hclash a ha (hvalue ▸ hno)
      exact hne (hall (made, a) (mem_picked.mpr ⟨ha, (hpick _ _).mpr hmade⟩))

/-- An argument that switches a setting is added if no argument before it switched the same setting the other way, and
only such ones can clash with it. -/
theorem adds_toggle {α : Type} [DecidableEq α] {make : α → Bool → Argument} {pick : Argument → Option (α × Bool)}
    {subject : α} {on : Bool} {set : List (Toggle α) → Gathered} (h : Consistent args)
    (hvalue : classify arg = make subject on) (harg : refusal? arg = none)
    (hpick : ∀ x v, pick x = some v ↔ x = make v.1 v.2)
    (hdiffer : ∀ s v w, v ≠ w → (make s v).Clashes (make s w))
    (hclash : ∀ a ∈ args, (classify a).Clashes (make subject on) → ∃ made, classify a = make subject made ∧ made ≠ on)
    (hset : set ((picked pick (args ++ [arg])).map fun c => ⟨c.1.1, c.1.2, c.2⟩) = .of (args ++ [arg])) :
    Adds args arg (do return set (← Toggle.add ((picked pick args).map fun c => ⟨c.1.1, c.1.2, c.2⟩) subject on arg)) := by
  have hadd := Toggle.add_spec ((picked pick args).map fun c => ⟨c.1.1, c.1.2, c.2⟩) subject on arg
  cases hmade : Toggle.add ((picked pick args).map fun c => ⟨c.1.1, c.1.2, c.2⟩) subject on arg with
  | error e =>
    rw [hmade] at hadd
    obtain ⟨t, ht, rfl, hne, rfl⟩ := hadd
    obtain ⟨c, hc, rfl⟩ := List.mem_map.mp ht
    rw [mem_picked, hpick] at hc
    refine .inr ⟨c.2, hc.1, ?_, rfl⟩
    rw [hc.2, hvalue]
    exact hdiffer _ _ _ hne
  | ok toggles =>
    rw [hmade] at hadd
    obtain ⟨rfl, hall⟩ := hadd
    refine ⟨?_, h.concat harg fun a ha hno => ?_⟩
    · rw [← hset, picked_concat, (hpick _ (subject, on)).mpr hvalue]
      simp
    · obtain ⟨made, hmade, hne⟩ := hclash a ha (hvalue ▸ hno)
      have ha : ((subject, made), a) ∈ picked pick args := mem_picked.mpr ⟨ha, (hpick _ _).mpr hmade⟩
      exact hne (hall _ (List.mem_map.mpr ⟨_, ha, rfl⟩) rfl)

/-- Where no argument makes a choice, a given one does not. -/
theorem pick_eq_none {α : Type} {pick : Argument → Option α} {a : String} (h : picked pick args = []) (ha : a ∈ args) :
    pick (classify a) = none := by
  refine Option.eq_none_iff_forall_not_mem.mpr fun v hv => ?_
  have hmem : (v, a) ∈ picked pick args := mem_picked.mpr ⟨ha, hv⟩
  rw [h] at hmem
  cases hmem

/-- Each argument is added to what was gathered of the arguments before it, or there is one of them to blame. -/
theorem adds_accept (arg : String) (h : Consistent args) : Adds args arg ((Gathered.of args).accept arg) := by
  unfold Gathered.accept
  cases harg : classify arg with
  | info r =>
    refine adds_alone h (by simp [refusal?, harg]) (by simp [harg]) ?_
    cases hfirst : (picked info? args).head? <;> simp [Gathered.of, picked_concat, harg, hfirst]
  | dialect d =>
    refine adds_choice h harg (by simp [refusal?, harg]) dialect?_eq_some (fun v w hne => hne) ?_ ?_
    · exact fun a _ => clashes_dialect.mp
    · simp [Gathered.of, picked_concat, harg]
  | qualifier q =>
    refine adds_choice h harg (by simp [refusal?, harg]) qualifier?_eq_some (fun v w hne => hne) ?_ ?_
    · exact fun a _ => clashes_qualifier.mp
    · simp [Gathered.of, picked_concat, harg]
  | sole p =>
    cases hproducts : (Gathered.of args).products with
    | cons t toggles =>
      have ht : t ∈ (Gathered.of args).products := by simp [hproducts]
      obtain ⟨c, hc, rfl⟩ := List.mem_map.mp ht
      rw [mem_picked, product?_eq_some] at hc
      exact .inr ⟨c.2, hc.1, by rw [hc.2, harg]; trivial, rfl⟩
    | nil =>
      have hnone : picked product? args = [] := List.map_eq_nil_iff.mp hproducts
      refine adds_choice h harg (by simp [refusal?, harg]) sole?_eq_some (fun v w hne => hne) (fun a ha hclash => ?_) ?_
      · refine (clashes_sole.mp hclash).resolve_right ?_
        rintro ⟨product, on, hproduct⟩
        have hpick := pick_eq_none hnone ha
        rw [hproduct] at hpick
        cases hpick
      · simp [Gathered.of, picked_concat, harg, hnone]
  | product p on =>
    cases hsole : (Gathered.of args).sole with
    | some c =>
      obtain ⟨hc, hmade⟩ := mem_picked.mp (List.mem_of_mem_head? (Option.mem_def.mpr hsole))
      rw [sole?_eq_some] at hmade
      exact .inr ⟨c.2, hc, by rw [hmade, harg]; trivial, rfl⟩
    | none =>
      have hnone : picked sole? args = [] := List.head?_eq_none_iff.mp hsole
      refine adds_toggle h harg (by simp [refusal?, harg]) product?_eq_some (fun s v w hne => ⟨rfl, hne⟩)
        (fun a ha hclash => ?_) ?_
      · refine (clashes_product.mp hclash).resolve_right ?_
        rintro ⟨product, hproduct⟩
        have hpick := pick_eq_none hnone ha
        rw [hproduct] at hpick
        cases hpick
      · simp [Gathered.of, picked_concat, harg, hnone]
  | identifiers m =>
    refine adds_choice h harg (by simp [refusal?, harg]) identifiers?_eq_some (fun v w hne => hne) ?_ ?_
    · exact fun a _ => clashes_identifiers.mp
    · simp [Gathered.of, picked_concat, harg]
  | comments m =>
    refine adds_choice h harg (by simp [refusal?, harg]) comments?_eq_some (fun v w hne => hne) ?_ ?_
    · exact fun a _ => clashes_comments.mp
    · simp [Gathered.of, picked_concat, harg]
  | capability c on =>
    refine adds_toggle h harg (by simp [refusal?, harg]) capability?_eq_some (fun s v w hne => ⟨rfl, hne⟩) ?_ ?_
    · exact fun a _ => clashes_capability.mp
    · simp [Gathered.of, picked_concat, harg]
  | diagnostics s =>
    refine adds_alone h (by simp [refusal?, harg]) (by simp [harg]) ?_
    simp [Gathered.of, picked_concat, harg]
  | sourceFile =>
    by_cases hsuffix : Gathered.hasSourceSuffix arg = true
    · simp only [hsuffix, if_true]
      refine adds_alone h (by simp [refusal?, harg, hsuffix]) (by simp [harg]) ?_
      simp [Gathered.of, picked_concat, harg]
    · simp only [hsuffix]
      exact .inl (by simp [refusal?, harg, hsuffix])
  | unknown => exact .inl (by simp [refusal?, harg])

/-! ## Whole command lines -/

/-- Two arguments of a command line that are blamed for its refusal, in the order in which they are named. -/
inductive Blames (args : List String) (first second : String) : Prop
  | clash (horder : [first, second].Sublist args) (h : (classify first).Clashes (classify second))
  | oppose (hfirst : first ∈ args) (hsecond : second ∈ args) (h : (classify first).Opposes (classify second))

/-- Why a command line is refused. -/
def RefusedWith (args : List String) (e : OptionsError) : Prop :=
  (∃ arg ∈ args, refusal? arg = some e) ∨ ∃ first second, Blames args first second ∧ e = .conflict first second

/-- Arguments that are blamed are among those given. -/
theorem Blames.mem {first second : String} (h : Blames args first second) : first ∈ args ∧ second ∈ args := by
  cases h with
  | clash horder h => exact ⟨horder.subset (by simp), horder.subset (by simp)⟩
  | oppose hfirst hsecond h => exact ⟨hfirst, hsecond⟩

/-- What has been refused is refused with further arguments as well. -/
theorem RefusedWith.concat {e : OptionsError} (h : RefusedWith args e) : RefusedWith (args ++ [arg]) e := by
  obtain ⟨a, ha, he⟩ | ⟨first, second, hblames, he⟩ := h
  · exact .inl ⟨a, List.mem_append_left _ ha, he⟩
  · refine .inr ⟨first, second, ?_, he⟩
    cases hblames with
    | clash horder h => exact .clash (horder.trans (List.sublist_append_left _ _)) h
    | oppose hfirst hsecond h => exact .oppose (List.mem_append_left _ hfirst) (List.mem_append_left _ hsecond) h

/-- Arguments that have all been read are consistent, and what they settled is read off from them. -/
theorem gather_spec (args : List String) :
    match args.foldlM Gathered.accept {} with
    | .ok g => g = .of args ∧ Consistent args
    | .error e => RefusedWith args e := by
  -- The induction goes from the front to the back, since each argument is checked against those before it.
  induction args using List.reverseRecOn with
  | nil => exact ⟨rfl, .nil⟩
  | append_singleton args arg ih =>
    simp only [List.foldlM_append, List.foldlM_cons, List.foldlM_nil, bind_pure]
    cases hread : args.foldlM Gathered.accept {} with
    | error e =>
      rw [hread] at ih
      exact ih.concat
    | ok g =>
      rw [hread] at ih
      obtain ⟨rfl, hconsistent⟩ := ih
      have hadds := adds_accept arg hconsistent
      show match (Gathered.of args).accept arg with
        | .ok g => g = .of (args ++ [arg]) ∧ Consistent (args ++ [arg])
        | .error e => RefusedWith (args ++ [arg]) e
      cases hnew : (Gathered.of args).accept arg with
      | ok g =>
        rw [hnew] at hadds
        exact hadds
      | error e =>
        rw [hnew] at hadds
        obtain hrefused | ⟨first, hfirst, hclash, he⟩ := hadds
        · exact .inl ⟨arg, by simp, hrefused⟩
        · refine .inr ⟨first, arg, .clash ?_ hclash, he⟩
          exact (List.singleton_sublist.mpr hfirst).append (List.Sublist.refl [arg])

/-- The qualifier is refused at the end if and only if the dialect is the extended one. -/
theorem qualify_spec (h : Consistent args) :
    match (Gathered.of args).qualify (.ofDialect (Gathered.of args).chosenDialect) with
    | .ok _ => ∀ a ∈ args, ∀ b ∈ args, ¬(classify a).Opposes (classify b)
    | .error e => ∃ first second, Blames args first second ∧ e = .conflict first second := by
  unfold Gathered.qualify
  cases hqualifier : (Gathered.of args).qualifier with
  | none =>
    intro a ha b hb hopposes
    obtain ⟨q, hq, -⟩ := opposes_iff.mp hopposes
    have hpick := pick_eq_none (List.head?_eq_none_iff.mp hqualifier) hb
    rw [hq] at hpick
    cases hpick
  | some c =>
    obtain ⟨q, second⟩ := c
    obtain ⟨hsecond, hq⟩ := mem_picked.mp (List.mem_of_mem_head? (Option.mem_def.mpr hqualifier))
    rw [qualifier?_eq_some] at hq
    by_cases hext : (Options.ofDialect (Gathered.of args).chosenDialect).dialect = .ext
    · simp only [hext, if_true]
      have hchosen : (Gathered.of args).chosenDialect = .ext := hext
      cases hdialect : (Gathered.of args).dialect with
      | none =>
        rw [Gathered.chosenDialect, hdialect] at hchosen
        cases hchosen
      | some c =>
        obtain ⟨d, first⟩ := c
        obtain ⟨hfirst, hd⟩ := mem_picked.mp (List.mem_of_mem_head? (Option.mem_def.mpr hdialect))
        rw [dialect?_eq_some] at hd
        rw [Gathered.chosenDialect, hdialect] at hchosen
        exact ⟨first, second, .oppose hfirst hsecond (opposes_iff.mpr ⟨q, hq, by rw [hd]; exact congrArg _ hchosen⟩), rfl⟩
    · simp only [hext, if_false]
      -- an argument for the extended dialect would be the one that was chosen
      have hnone : ∀ a ∈ args, ∀ b ∈ args, ¬(classify a).Opposes (classify b) := by
        intro a ha b hb hopposes
        obtain ⟨-, -, ha'⟩ := opposes_iff.mp hopposes
        obtain ⟨c, hc⟩ : ∃ c, (Gathered.of args).dialect = some c := by
          refine Option.isSome_iff_exists.mp (List.isSome_head?.mpr (List.ne_nil_of_mem (a := (.ext, a)) ?_))
          exact mem_picked.mpr ⟨ha, by rw [ha']; rfl⟩
        obtain ⟨hmem, hd⟩ := mem_picked.mp (List.mem_of_mem_head? (Option.mem_def.mpr hc))
        rw [dialect?_eq_some] at hd
        refine h.compatible c.2 hmem a ha ?_
        rw [ha', hd]
        rintro heq
        exact hext (by rw [← heq, Gathered.chosenDialect, hc]; rfl)
      cases q <;> exact hnone

/-- A command line is resolved only if its arguments are consistent and the extended dialect has no qualifier. Otherwise
an argument is refused by itself, or two of them are blamed. -/
theorem ofArguments_spec (args : List String) :
    match Invocation.ofArguments args with
    | .ok i => Consistent args ∧ (∀ a ∈ args, ∀ b ∈ args, ¬(classify a).Opposes (classify b)) ∧
        (Gathered.of args).finish = .ok i
    | .error e => RefusedWith args e := by
  have hgather := gather_spec args
  unfold Invocation.ofArguments
  cases hread : args.foldlM Gathered.accept {} with
  | error e =>
    rw [hread] at hgather
    exact hgather
  | ok g =>
    rw [hread] at hgather
    obtain ⟨rfl, hconsistent⟩ := hgather
    have hqualify := qualify_spec hconsistent
    show match (Gathered.of args).finish with
      | .ok i => _
      | .error e => _
    unfold Gathered.finish
    cases hqualified : (Gathered.of args).qualify (.ofDialect (Gathered.of args).chosenDialect) with
    | error e =>
      rw [hqualified] at hqualify
      exact .inr hqualify
    | ok o =>
      rw [hqualified] at hqualify
      exact ⟨hconsistent, hqualify, rfl⟩

/-- Arguments that are resolved. -/
structure Resolvable (args : List String) : Prop extends Consistent args where
  unopposed : ∀ a ∈ args, ∀ b ∈ args, ¬(classify a).Opposes (classify b)

/-- Arguments that are blamed cannot be resolved. -/
theorem Blames.not_resolvable {first second : String} (h : Blames args first second) : ¬Resolvable args := by
  intro hresolvable
  obtain ⟨hfirst, hsecond⟩ := h.mem
  cases h with
  | clash horder h => exact hresolvable.compatible first hfirst second hsecond h
  | oppose _ _ h => exact hresolvable.unopposed first hfirst second hsecond h

/-- Arguments are accepted exactly if they can be resolved. -/
theorem exists_ofArguments_eq_ok : (∃ i, Invocation.ofArguments args = .ok i) ↔ Resolvable args := by
  have hspec := ofArguments_spec args
  constructor
  · rintro ⟨i, hi⟩
    rw [hi] at hspec
    exact ⟨hspec.1, hspec.2.1⟩
  · intro h
    cases hresult : Invocation.ofArguments args with
    | ok i => exact ⟨i, rfl⟩
    | error e =>
      rw [hresult] at hspec
      obtain ⟨arg, harg, hrefused⟩ | ⟨first, second, hblames, -⟩ := hspec
      · rw [h.accepted arg harg] at hrefused
        cases hrefused
      · exact (hblames.not_resolvable h).elim

/-- Resolvable arguments stay so when some are left out or repeated. -/
theorem Resolvable.subset {args' : List String} (h : Resolvable args) (hsubset : args' ⊆ args) : Resolvable args' :=
  ⟨⟨fun a ha => h.accepted a (hsubset ha), fun a ha b hb => h.compatible a (hsubset ha) b (hsubset hb)⟩,
    fun a ha b hb => h.unopposed a (hsubset ha) b (hsubset hb)⟩

/-- Two members of a list stand in it in one order or the other. -/
theorem pair_sublist {α : Type} {l : List α} {a b : α} (ha : a ∈ l) (hb : b ∈ l) :
    a = b ∨ [a, b].Sublist l ∨ [b, a].Sublist l := by
  obtain ⟨front, back, rfl⟩ := List.append_of_mem ha
  obtain hfront | hback := List.mem_append.mp hb
  · refine .inr (.inr ?_)
    exact (List.singleton_sublist.mpr hfront).append (List.singleton_sublist.mpr (List.mem_cons_self ..))
  · obtain rfl | hback := List.mem_cons.mp hback
    · exact .inl rfl
    · refine .inr (.inl ?_)
      exact ((List.singleton_sublist.mpr hback).cons_cons a).trans (List.sublist_append_right _ _)

/-- Arguments can be resolved if all of them and all pairs of them can. -/
theorem resolvable_of_pairs (hsingle : ∀ a ∈ args, Resolvable [a])
    (hpair : ∀ a b, [a, b].Sublist args → Resolvable [a, b]) : Resolvable args := by
  have htogether : ∀ a ∈ args, ∀ b ∈ args, ∃ pair, Resolvable pair ∧ a ∈ pair ∧ b ∈ pair := by
    intro a ha b hb
    obtain rfl | horder | horder := pair_sublist ha hb
    · exact ⟨[a], hsingle a ha, by simp, by simp⟩
    · exact ⟨[a, b], hpair a b horder, by simp, by simp⟩
    · exact ⟨[b, a], hpair b a horder, by simp, by simp⟩
  refine ⟨⟨fun a ha => (hsingle a ha).accepted a (by simp), fun a ha b hb => ?_⟩, fun a ha b hb => ?_⟩
  · obtain ⟨pair, hresolvable, ha, hb⟩ := htogether a ha b hb
    exact hresolvable.compatible a ha b hb
  · obtain ⟨pair, hresolvable, ha, hb⟩ := htogether a ha b hb
    exact hresolvable.unopposed a ha b hb

/-- An argument that clashes with another one is not refused by itself. -/
theorem accepted_of_clashes {x : Argument} (h : x.Clashes (classify arg)) : refusal? arg = none := by
  unfold refusal?
  cases harg : classify arg <;> simp_all

/-- Of two arguments that are blamed, none is refused by itself. -/
theorem Blames.accepted {first second : String} (h : Blames args first second) :
    refusal? first = none ∧ refusal? second = none := by
  cases h with
  | clash _ h => exact ⟨accepted_of_clashes h.symm, accepted_of_clashes h⟩
  | oppose _ _ h =>
    obtain ⟨q, hsecond, hfirst⟩ := opposes_iff.mp h
    simp [refusal?, hfirst, hsecond]

/-- Two arguments that are blamed are blamed in the same way if nothing else is given. -/
theorem Blames.alone {first second : String} (h : Blames args first second) : Blames [first, second] first second := by
  cases h with
  | clash _ h => exact .clash (List.Sublist.refl _) h
  | oppose _ _ h => exact .oppose (by simp) (by simp) h

/-- Nobody else is blamed then. -/
theorem Blames.unique {first second a b : String} (h : Blames args first second) (h' : Blames [first, second] a b) :
    a = first ∧ b = second := by
  cases h' with
  | clash horder hab =>
    have heq := horder.eq_of_length rfl
    simp_all
  | oppose ha hb hab =>
    obtain ⟨hno, hno'⟩ := hab.not_clashes
    have hself : ¬(classify a).Opposes (classify a) := fun h => h.not_opposes h
    have hback := hab.not_opposes
    simp only [List.mem_cons, List.not_mem_nil, or_false] at ha hb
    obtain rfl | rfl := ha <;> obtain rfl | rfl := hb
    · exact (hself hab).elim
    · exact ⟨rfl, rfl⟩
    · cases h with
      | clash _ h => exact (hno' h).elim
      | oppose _ _ h => exact (hback h).elim
    · exact (hself hab).elim

end

/-- A command line is resolved if and only if each of its arguments is by itself and every two of them are, in their
order; and if two arguments are blamed, they stand in the line and are blamed in the same way without the others. -/
theorem refusals_pairwise (args : List String) :
    ((∃ i, Invocation.ofArguments args = .ok i) ↔
      (∀ a ∈ args, ∃ i, Invocation.ofArguments [a] = .ok i) ∧
        ∀ a b, [a, b].Sublist args → ∃ i, Invocation.ofArguments [a, b] = .ok i) ∧
    ∀ first second, Invocation.ofArguments args = .error (.conflict first second) →
      first ∈ args ∧ second ∈ args ∧ Invocation.ofArguments [first, second] = .error (.conflict first second) := by
  simp only [exists_ofArguments_eq_ok]
  refine ⟨⟨fun h => ⟨fun a ha => h.subset (by simpa using ha), fun a b hab => h.subset hab.subset⟩,
    fun h => resolvable_of_pairs h.1 h.2⟩, fun first second herror => ?_⟩
  have hspec := ofArguments_spec args
  rw [herror] at hspec
  -- the refusal of a single argument is no conflict
  have hblames : Blames args first second := by
    obtain ⟨arg, -, hrefused⟩ | ⟨first', second', hblames, heq⟩ := hspec
    · unfold refusal? at hrefused
      split at hrefused <;> simp at hrefused
    · cases heq
      exact hblames
  refine ⟨hblames.mem.1, hblames.mem.2, ?_⟩
  have hpair := ofArguments_spec [first, second]
  cases hresult : Invocation.ofArguments [first, second] with
  | ok i =>
    rw [hresult] at hpair
    exact (hblames.alone.not_resolvable ⟨hpair.1, hpair.2.1⟩).elim
  | error e =>
    rw [hresult] at hpair
    obtain ⟨arg, harg, hrefused⟩ | ⟨a, b, hblames', rfl⟩ := hpair
    · obtain ⟨hfirst, hsecond⟩ := hblames.accepted
      simp only [List.mem_cons, List.not_mem_nil, or_false] at harg
      obtain rfl | rfl := harg
      · rw [hfirst] at hrefused
        cases hrefused
      · rw [hsecond] at hrefused
        cases hrefused
    · obtain ⟨rfl, rfl⟩ := hblames.unique hblames'
      rfl

/-- A product after a source file and before the limit to one product: the latter two are blamed. -/
theorem refusals_pairwise_limit :
    Invocation.ofArguments ["--ast", "Foo.mod", "--safer", "--ast-only"] = .error (.conflict "--ast" "--ast-only") ∧
      Invocation.ofArguments ["--ast", "--ast-only"] = .error (.conflict "--ast" "--ast-only") := by
  have h : Invocation.ofArguments ["--ast", "Foo.mod", "--safer", "--ast-only"] =
      .error (.conflict "--ast" "--ast-only") := by decide
  exact ⟨h, ((refusals_pairwise _).2 _ _ h).2.2⟩

end Modula
