import Mathlib.Data.List.Forall2
import Modula.Parser.Module
import Modula.Proofs.Parser.Ensures
import Modula.Proofs.Tree.Building

/-!
# Which nodes productions yield

As long as no error has been reported, the parts that a production builds a node of fit the schema. This is followed
through the scripts by the types of nodes alone: `Yields` says what types a script yields if it reports nothing, and
asks that every node it builds can be built. One loss is foreseen, that of a set value whose type is a designator with
selectors (`NodeError.ofSelectedSetType`); nothing is said of what comes after it.
-/

set_option autoImplicit false

namespace Modula

/-- The types of the nodes that a rule yields. -/
def Rule.types : Rule → List NodeType
  | .expression => NodeType.expressions
  | .typeExpression => NodeType.typeExpressions
  | .variantFields => [.variantFieldList]
  | .statementSequence => [.empty, .statementSequence]
  | .block => [.block]

/-- Only the types of nodes are followed. Nothing is asked after a report, and rules yield what they are said to. -/
def typing : Abstraction Unit where
  act
    | .lookahead, _, Q => ∀ t, Q t ()
    | .qualifies, _, Q => ∀ b, Q b ()
    | .accept, _, Q => ∀ lexeme, Q lexeme ()
    | .enter _, _, Q | .warnNext _, _, Q | .warnAccepted _, _, Q | .skipped _, _, Q => Q () ()
    | .reject _, _, _ | .rejectClosing _, _, _ => True
    | .build (.ok node), _, Q => Q node ()
    | .build (.error e), _, _ => e.OfSelectedSetType
  call rule _ Q := ∀ node : Node, node.type ∈ rule.types → Q node ()
  progress _ _ := True
  act_mono := by
    intro α action v P Q hPQ h
    cases action with
    | lookahead | qualifies | accept => exact fun a => hPQ a () (h a)
    | enter p | warnNext code | warnAccepted code | skipped n => exact hPQ () () h
    | reject expected | rejectClosing closing => trivial
    | build node =>
      cases node with
      | ok node => exact hPQ node () h
      | error e => exact h
  call_mono hPQ h node hnode := hPQ node () (h node hnode)

namespace Script

variable {α β : Type}

/-- What a script yields as long as nothing is reported. -/
def Yields (script : Script α) (Q : α → Prop) : Prop := script.Ensures typing () fun a _ => Q a

variable {script : Script α} {P Q : α → Prop}

/-- What is yielded has all properties that follow. -/
theorem Yields.mono (h : script.Yields P) (hPQ : ∀ a, P a → Q a) : script.Yields Q :=
  Ensures.mono (fun a _ => hPQ a) h

/-- What is given is yielded. -/
@[simp] theorem yields_pure {a : α} : (Pure.pure a : Script α).Yields Q ↔ Q a := Iff.rfl

/-- The rest of a script yields what the whole does. -/
@[simp] theorem yields_bind {first : Script α} {next : α → Script β} {Q : β → Prop} :
    (first >>= next).Yields Q ↔ first.Yields fun a => (next a).Yields Q := Iff.rfl

/-- Both branches are followed. -/
@[simp] theorem yields_ite {p : Prop} [Decidable p] {c d : Script α} :
    (if p then c else d).Yields Q ↔ (p → c.Yields Q) ∧ (¬ p → d.Yields Q) := by
  split <;> simp_all

/-- An invariant of the rounds holds at the end of the loop. -/
theorem yields_loop {init : α} {step : α → Script (ForInStep α)} (inv : α → Prop) (hinit : inv init)
    (hstep : ∀ a, inv a → (step a).Yields fun
      | .done b => Q b
      | .yield b => inv b) : (loop init step).Yields Q := by
  refine ⟨fun a _ => inv a, hinit, fun a _ ha => Ensures.mono ?_ (hstep a ha)⟩
  rintro (b | b) _ hb
  · exact hb
  · exact ⟨hb, trivial⟩

/-! ## Common parts of productions -/

/-- Any token may come next. -/
@[simp] theorem yields_lookahead {Q : Token → Prop} : lookahead.Yields Q ↔ ∀ t, Q t := Iff.rfl

/-- A qualified identifier may go on or not. -/
@[simp] theorem yields_qualifies {Q : Bool → Prop} : (act .qualifies).Yields Q ↔ ∀ b, Q b := Iff.rfl

/-- Any characters may be accepted. -/
@[simp] theorem yields_accept {Q : String → Prop} : accept.Yields Q ↔ ∀ lexeme, Q lexeme := Iff.rfl

/-- Accepting a symbol for nothing but its token yields nothing. -/
@[simp] theorem yields_skip {Q : Unit → Prop} : skip.Yields Q ↔ Q () := by simp [skip]

/-- Entering a production yields nothing. -/
@[simp] theorem yields_enter {p : Production} {Q : Unit → Prop} : (enter p).Yields Q ↔ Q () := Iff.rfl

/-- A warning is no report of an error. -/
@[simp] theorem yields_warnAccepted {code : Code} {Q : Unit → Prop} : (act (.warnAccepted code)).Yields Q ↔ Q () :=
  Iff.rfl

/-- Nothing is asked after a symbol has been rejected. -/
@[simp] theorem yields_reject {expected : Expected} {Q : Unit → Prop} : (act (.reject expected)).Yields Q ↔ True :=
  Iff.rfl

/-- Whether a production starts depends on a token of which nothing is known. -/
@[simp] theorem yields_starts {ctx : Context} {p : Production} {Q : Bool → Prop} :
    (starts ctx p).Yields Q ↔ ∀ t, Q ((p.first ctx).contains t) := by
  simp [starts]

/-- So does whether some token is next. -/
@[simp] theorem yields_nextIs {t : Token} {Q : Bool → Prop} : (nextIs t).Yields Q ↔ ∀ u : Token, Q (u = t) := by
  simp [nextIs]

/-- As long as nothing is reported, what is demanded is found. -/
@[simp] theorem yields_demand {t : Token} {resume : TokenSet} {Q : Option String → Prop} :
    (demand t resume).Yields Q ↔ ∀ lexeme, Q (some lexeme) := by
  simp [demand]

/-- So is a token that is expected. -/
@[simp] theorem yields_expect {t : Token} {resume : TokenSet} {Q : Bool → Prop} :
    (expect t resume).Yields Q ↔ Q true := by
  simp [expect]

/-- So is an identifier. -/
@[simp] theorem yields_expectIdent {resume : TokenSet} {Q : Option String → Prop} :
    (expectIdent resume).Yields Q ↔ ∀ lexeme, Q (some lexeme) := by
  simp [expectIdent]

/-- Where no alternative starts something is reported. -/
@[simp] theorem yields_noAlternative {ctx : Context} {p : Production} {Q : Node → Prop} :
    (noAlternative ctx p).Yields Q ↔ True := by
  simp [noAlternative]

/-! ## Following a script

Each lemma is about a script that starts in one way, so that a production is followed from its start to its end.
-/

variable {next : β → Script α} {c d : Script α}

/-- The rest of a script is followed after its first part. -/
theorem Yields.bind {first : Script β} (h : first.Yields fun b => (next b).Yields Q) : (first >>= next).Yields Q := h

/-- A script goes on after it has entered a production. -/
theorem Yields.enter {p : Production} {next : Unit → Script α} (h : (next ()).Yields Q) :
    (enter p >>= next).Yields Q := h

/-- A script goes on after any token. -/
theorem Yields.lookahead {next : Token → Script α} (h : ∀ t, (next t).Yields Q) :
    (Script.lookahead >>= next).Yields Q := h

/-- A script goes on after any characters. -/
theorem Yields.accept {next : String → Script α} (h : ∀ lexeme, (next lexeme).Yields Q) :
    (Script.accept >>= next).Yields Q := h

/-- A script goes on after a symbol. -/
theorem Yields.skip {next : Unit → Script α} (h : (next ()).Yields Q) : (Script.skip >>= next).Yields Q := by
  simpa using h

/-- A script goes on with an expression that its rule yields. -/
theorem Yields.expression {next : Node → Script α}
    (h : ∀ node : Node, node.type ∈ NodeType.expressions → (next node).Yields Q) :
    (call .expression >>= next).Yields Q := h

/-- A script goes on with a type that its rule yields. -/
theorem Yields.typeExpression {next : Node → Script α}
    (h : ∀ node : Node, node.type ∈ NodeType.typeExpressions → (next node).Yields Q) :
    (call .typeExpression >>= next).Yields Q := h

/-- A script goes on with statements, or without. -/
theorem Yields.statements {next : Node → Script α}
    (h : ∀ node : Node, node.type = .empty ∨ node.type = .statementSequence → (next node).Yields Q) :
    (call .statementSequence >>= next).Yields Q := fun node hnode => h node (by simpa [Rule.types] using hnode)

/-- A script goes on with a block. -/
theorem Yields.block {next : Node → Script α} (h : ∀ node : Node, node.type = .block → (next node).Yields Q) :
    (call .block >>= next).Yields Q := fun node hnode => h node (by simpa [Rule.types] using hnode)

/-- Where a token is expected, only the branch counts in which it is found. -/
theorem Yields.expect {t : Token} {resume : TokenSet} (h : c.Yields Q) :
    (Script.expect t resume >>= fun b => if b = true then c else d).Yields Q := by
  simpa using h

/-- Where an identifier is expected, only what follows one counts. -/
theorem Yields.expectIdent {resume : TokenSet} {next : Option String → Script α}
    (h : ∀ ident, (next (some ident)).Yields Q) : (Script.expectIdent resume >>= next).Yields Q := by
  simpa using h

/-- Both branches of a test for a production are followed. -/
theorem Yields.starts {ctx : Context} {p : Production} (hc : c.Yields Q) (hd : d.Yields Q) :
    (Script.starts ctx p >>= fun b => if b = true then c else d).Yields Q := by
  simp [hc, hd]

/-- Both branches of a test for a token are followed. -/
theorem Yields.nextIs {t : Token} (hc : c.Yields Q) (hd : d.Yields Q) :
    (Script.nextIs t >>= fun b => if b = true then c else d).Yields Q := by
  simp [hc, hd]

/-- A test whose outcome only decides how a part is found that the rest goes on with. -/
theorem Yields.test {t : Token} {next : Bool → Script α} (h : ∀ b, (next b).Yields Q) :
    (Script.nextIs t >>= next).Yields Q := by
  simp [h]

/-- A test may come out either way. -/
theorem Yields.testStarts {ctx : Context} {p : Production} {next : Bool → Script α} (h : ∀ b, (next b).Yields Q) :
    (Script.starts ctx p >>= next).Yields Q := by
  simp [h]

/-- Where no alternative starts, anything may be said of what is yielded. -/
theorem Yields.noAlternative {ctx : Context} {p : Production} {Q : Node → Prop} :
    (Script.noAlternative ctx p).Yields Q := by
  simp

/-! ## Building nodes -/

/-- The empty node has the empty type. -/
@[simp] theorem type_empty : Node.empty.type = .empty := rfl

/-- A required part is of one of the types. -/
@[simp] theorem accepts_required {types : List NodeType} {t : NodeType} :
    (Slot.required types).accepts t = true ↔ t ∈ types := by
  simp [Slot.required, Slot.accepts]

/-- An optional part may be empty. -/
@[simp] theorem accepts_optional {types : List NodeType} {t : NodeType} :
    (Slot.optional types).accepts t = true ↔ t = .empty ∨ t ∈ types := by
  simp [Slot.optional, Slot.accepts]

/-- Subnodes that the slots accept one by one are all in place. -/
theorem misplaced?_eq_none {t : NodeType} {slots rest : List Slot} {i : Nat} {ns : List Node}
    (hshape : t.shape = .branch slots) (hrest : slots.drop i = rest)
    (h : List.Forall₂ (fun slot node => slot.accepts node.type = true) rest ns) : Node.misplaced? t i ns = none := by
  induction h generalizing i with
  | nil => rfl
  | @cons slot node rest ns hslot h ih =>
    have hget : slots[i]? = some slot := by
      rw [← List.head?_drop, hrest]
      rfl
    have hallows : t.allowsAt i node.type = true := by simp [NodeType.allowsAt, hshape, hget, hslot]
    have hdrop : slots.drop (i + 1) = rest := by rw [← List.tail_drop, hrest, List.tail_cons]
    simp only [Node.misplaced?, hallows, if_true]
    exact ih hdrop

/-- A node whose parts are accepted by the slots of its type is built of them. -/
theorem ofBranch_eq_ok {t : NodeType} {slots : List Slot} {ns : List Node} (hshape : t.shape = .branch slots)
    (h : List.Forall₂ (fun slot node => slot.accepts node.type = true) slots ns) :
    Node.ofBranch t ns = .ok (.inner t ns) := by
  have hbranch : t.isBranch = true := by simp [NodeType.isBranch, hshape]
  have hcount : t.allowsCount ns.length = true := by
    simp [NodeType.allowsCount, NodeType.countRange, hshape, h.length_eq]
  simp [Node.ofBranch, hbranch, Node.fault?, hcount, misplaced?_eq_none (i := 0) hshape rfl h]

/-- A branch whose subnodes fit its slots can be built. -/
theorem yields_branch {t : NodeType} {slots : List Slot} {ns : List Node} {Q : Node → Prop}
    (hshape : t.shape = .branch slots) (h : List.Forall₂ (fun slot node => slot.accepts node.type = true) slots ns)
    (hQ : ∀ node : Node, node.type = t → Q node) : (branch t ns).Yields Q := by
  unfold branch Yields Ensures
  rw [ofBranch_eq_ok hshape h]
  exact hQ _ rfl

/-- Subnodes of the types of a list are all in place. -/
theorem misplaced?_eq_none_of_list {t : NodeType} {least i : Nat} {members : List NodeType} {ns : List Node}
    (hshape : t.shape = .list least members) (h : ∀ node ∈ ns, node.type ∈ members) :
    Node.misplaced? t i ns = none := by
  induction ns generalizing i with
  | nil => rfl
  | cons node ns ih =>
    have hallows : t.allowsAt i node.type = true := by
      simpa [NodeType.allowsAt, hshape] using h node (by simp)
    simp only [Node.misplaced?, hallows, if_true]
    exact ih fun n hn => h n (by simp [hn])

/-- So the list can be built if it has any. -/
theorem ofList_eq_ok {t : NodeType} {members : List NodeType} {ns : List Node} (hshape : t.shape = .list 1 members)
    (hne : ns ≠ []) (h : ∀ node ∈ ns, node.type ∈ members) : Node.ofList t ns = .ok (.inner t ns) := by
  have hlist : t.isList = true := by simp [NodeType.isList, hshape]
  have hpos : 0 < ns.length := List.length_pos_iff.mpr hne
  have hcount : t.allowsCount ns.length = true := by
    simp [NodeType.allowsCount, NodeType.countRange, hshape]
    omega
  simp [Node.ofList, hlist, Node.fault?, hcount, misplaced?_eq_none_of_list (i := 0) hshape h]

/-- A list is built of members of its type, empty nodes left out; it is absent if none is left. -/
theorem yields_list {t : NodeType} {members : List NodeType} {ns : List Node} {Q : Node → Prop}
    (hshape : t.shape = .list 1 members) (h : ∀ node ∈ ns, node.type = .empty ∨ node.type ∈ members)
    (hQ : ∀ node : Node, node.type = .empty ∨ node.type = t → Q node) : (list t ns).Yields Q := by
  unfold list
  split
  · exact hQ _ (.inl rfl)
  · next present hne =>
    have hmembers : ∀ node ∈ ns.filter (!·.isEmpty), node.type ∈ members := by
      intro node hnode
      obtain ⟨hmem, hempty⟩ := List.mem_filter.mp hnode
      obtain htype | htype := h node hmem
      · simp [Node.isEmpty, htype] at hempty
      · exact htype
    unfold Yields Ensures
    rw [ofList_eq_ok hshape hne hmembers]
    exact hQ _ (.inr rfl)

/-- No node is left out of a list of members none of which can be empty. -/
theorem filter_members {members : List NodeType} {ns : List Node} (hmembers : .empty ∉ members)
    (h : ∀ node ∈ ns, node.type ∈ members) : ns.filter (!·.isEmpty) = ns := by
  refine List.filter_eq_self.mpr fun node hnode => ?_
  have hmem := h node hnode
  simp only [Node.isEmpty, Bool.not_eq_true', beq_eq_false_iff_ne]
  intro hempty
  rw [hempty] at hmem
  exact hmembers hmem

/-- A list of one or more members, none of which can be empty, is there. -/
theorem yields_nonemptyList {t : NodeType} {members : List NodeType} {ns : List Node} {Q : Node → Prop}
    (hshape : t.shape = .list 1 members) (hmembers : .empty ∉ members) (hne : ns ≠ [])
    (h : ∀ node ∈ ns, node.type ∈ members) (hQ : ∀ node : Node, node.type = t → Q node) : (list t ns).Yields Q := by
  unfold list
  rw [filter_members hmembers h]
  split
  · exact (hne rfl).elim
  · unfold Yields Ensures
    rw [ofList_eq_ok hshape hne h]
    exact hQ _ rfl

/-- A node of one value can always be built. -/
theorem yields_terminal {t : NodeType} {value : String} {Q : Node → Prop} (hshape : t.shape = .terminal)
    (hQ : ∀ node : Node, node.type = t → Q node) : (terminal t value).Yields Q := by
  unfold terminal Yields Ensures
  simp only [Node.ofValue, hshape]
  exact hQ _ rfl

/-- So can a node of as many values as it takes. -/
theorem yields_terminals {t : NodeType} {least : Nat} {values : List String} {Q : Node → Prop}
    (hshape : t.shape = .terminals least) (hne : values ≠ []) (hleast : least ≤ values.length)
    (hQ : ∀ node : Node, node.type = t → Q node) : (terminals t values).Yields Q := by
  have hcount : t.allowsCount values.length = true := by
    simpa [NodeType.allowsCount, NodeType.countRange, hshape] using hleast
  have hempty : values.isEmpty = false := by simpa using hne
  unfold terminals
  rw [if_neg (by simp [hempty])]
  unfold Yields Ensures
  simp only [Node.ofValues, hshape, hcount, if_true]
  exact hQ _ rfl

/-- Where an identifier belongs there is one. -/
@[simp] theorem accepts_identSlot {t : NodeType} : NodeType.identSlot.accepts t = true ↔ t = .ident := by
  simp [NodeType.identSlot]

/-- Where a list of identifiers belongs there is one. -/
@[simp] theorem accepts_identListSlot {t : NodeType} : NodeType.identListSlot.accepts t = true ↔ t = .identList := by
  simp [NodeType.identListSlot]

/-- Where an expression belongs there may be any kind of it. -/
@[simp] theorem accepts_expressionSlot {t : NodeType} :
    NodeType.expressionSlot.accepts t = true ↔ t ∈ NodeType.expressions := by
  simp [NodeType.expressionSlot]

/-- Where an expression may be missing the node is empty. -/
@[simp] theorem accepts_optionalExpressionSlot {t : NodeType} :
    NodeType.optionalExpressionSlot.accepts t = true ↔ t = .empty ∨ t ∈ NodeType.expressions := by
  simp [NodeType.optionalExpressionSlot]

/-- Where statements belong there may be none. -/
@[simp] theorem accepts_statementsSlot {t : NodeType} :
    NodeType.statementsSlot.accepts t = true ↔ t = .empty ∨ t = .statementSequence := by
  simp [NodeType.statementsSlot]

/-! ## Rows of items -/

/-- A row with separators has at least one item. -/
theorem yields_separated {separator : Token} {item : Script α} {Q : List α → Prop} (hitem : item.Yields P)
    (hQ : ∀ items, items ≠ [] → (∀ a ∈ items, P a) → Q items) : (separated separator item).Yields Q := by
  unfold separated
  refine yields_bind.mpr (hitem.mono fun first hfirst => ?_)
  refine yields_loop (fun items => items ≠ [] ∧ ∀ a ∈ items, P a) (by simpa using hfirst) ?_
  rintro items ⟨hne, hitems⟩
  simp only [yields_bind, yields_nextIs, yields_ite, yields_skip, yields_pure]
  refine fun t => ⟨fun _ => hitem.mono fun a ha => ⟨by simp, ?_⟩, fun _ => ?_⟩
  · simpa using ⟨ha, hitems⟩
  · exact hQ items.reverse (by simpa using hne) (by simpa using hitems)

/-- A row with semicolons has the items that were yielded, however many. -/
theorem yields_semicolonSeparated {follow : TokenSet} {errant : Code} {item : Script Node} {P : Node → Prop}
    {Q : List Node → Prop} (hitem : item.Yields P) (hQ : ∀ items, (∀ a ∈ items, P a) → Q items) :
    (semicolonSeparated follow errant item).Yields Q := by
  unfold semicolonSeparated
  refine yields_bind.mpr (hitem.mono fun first hfirst => ?_)
  refine yields_loop (fun items => ∀ a ∈ items, P a) (by simpa using hfirst) ?_
  intro items hitems
  have hdone : Q items.reverse := hQ items.reverse (by simpa using hitems)
  simp only [yields_bind, yields_nextIs, yields_ite, yields_skip, yields_pure, yields_lookahead, yields_warnAccepted]
  refine fun t => ⟨fun _ u => ⟨fun _ => hdone, fun _ => hitem.mono fun a ha => ?_⟩, fun _ => hdone⟩
  simpa using ⟨ha, hitems⟩

/-- So has a row of what starts a production. -/
theorem yields_whileStarts {ctx : Context} {p : Production} {item : Script α} {Q : List α → Prop}
    (hitem : item.Yields P) (hQ : ∀ items, (∀ a ∈ items, P a) → Q items) :
    (whileStarts ctx p item).Yields Q := by
  unfold whileStarts
  refine yields_loop (fun items => ∀ a ∈ items, P a) (by simp) ?_
  intro items hitems
  simp only [yields_bind, yields_starts, yields_ite, yields_pure]
  refine fun t => ⟨fun _ => hitem.mono fun a ha => ?_, fun _ => hQ items.reverse (by simpa using hitems)⟩
  simpa using ⟨ha, hitems⟩

/-- So has a row with bars. -/
theorem yields_barred {ctx : Context} {p : Production} {item : Script Node} {P : Node → Prop} {Q : List Node → Prop}
    (hitem : item.Yields P) (hQ : ∀ items, (∀ a ∈ items, P a) → Q items) : (barred ctx p item).Yields Q := by
  unfold barred
  refine yields_loop (fun items => ∀ a ∈ items, P a) (by simp) ?_
  intro items hitems
  simp only [pure_eq, yields_bind, yields_starts, yields_nextIs, yields_ite, yields_skip, yields_pure]
  refine fun t => ⟨fun _ => hitem.mono fun a ha u => ?_, fun _ u => ?_⟩
  · have hmore : ∀ b ∈ a :: items, P b := by simpa using ⟨ha, hitems⟩
    exact ⟨fun _ => hmore, fun _ => hQ _ fun b hb => hmore b (List.mem_reverse.mp hb)⟩
  · exact ⟨fun _ => hitems, fun _ => hQ _ (by simpa using hitems)⟩

/-- A list of identifiers has at least one. -/
theorem yields_identList {ctx : Context} {Q : Node → Prop} (hQ : ∀ node : Node, node.type = .identList → Q node) :
    (identList ctx).Yields Q := by
  unfold identList
  simp only [yields_bind, yields_enter]
  refine yields_separated (P := fun ident => ident.isSome) (by simp) fun idents hne hidents => ?_
  have hvalues : idents.filterMap id ≠ [] := by
    obtain ⟨ident, others, rfl⟩ := List.exists_cons_of_ne_nil hne
    obtain ⟨value, rfl⟩ := Option.isSome_iff_exists.mp (hidents ident (by simp))
    simp
  exact yields_terminals rfl hvalues (List.length_pos_iff.mpr hvalues) hQ

/-- An identifier is qualified, or not. -/
theorem yields_qualident {ctx : Context} {Q : Node → Prop} (hQ : ∀ node : Node, node.type ∈ NodeType.typeNames → Q node) :
    (qualident ctx).Yields Q := by
  unfold qualident
  simp only [yields_bind, yields_enter, yields_expectIdent]
  intro first
  refine yields_loop (fun parts => parts ≠ []) (by simp) ?_
  intro parts hne
  simp only [yields_bind, yields_qualifies, yields_ite, yields_skip, yields_pure, yields_accept]
  refine fun b => ⟨fun _ lexeme => by simp, fun _ => ?_⟩
  split
  · exact yields_terminal rfl fun node hnode => hQ node (by simp [hnode, NodeType.typeNames])
  · next hmore =>
    have hlength : 2 ≤ parts.reverse.length := by
      obtain ⟨ident, others, rfl⟩ := List.exists_cons_of_ne_nil hne
      cases others with
      | nil => exact (hmore ident rfl).elim
      | cons ident' others => simp
    refine yields_terminals rfl (by simpa using hne) hlength fun node hnode => hQ node ?_
    simp [hnode, NodeType.typeNames]

end Script

end Modula
