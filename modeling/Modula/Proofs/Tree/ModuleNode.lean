import Modula.Proofs.Parser.Action
import Modula.Proofs.Tree.ProductionTypes

/-!
# The node of the module

If nothing is rejected, a unit yields the node of its module, whatever else may have been lost: the name of the module
and its block are always there, and all other parts may be absent. So nodes are followed by their types here as they
are when losses are foreseen, except that any node may fail to be built and be empty.
-/

set_option autoImplicit false

namespace Modula

open SymbolReader

/-- The types of the module in a unit. -/
def UnitKind.moduleTypes : UnitKind → List NodeType
  | .definition => [.definitionModule]
  | .implementation => [.implementationModule, .programModule]

/-- Whether a rule may yield a node of the type when nodes can be lost. Of some rules this need not be known. -/
def Rule.MayYield : Rule → NodeType → Prop
  | .expression, t => t = .empty ∨ t ∈ NodeType.expressions
  | .statementSequence, t => t = .empty ∨ t = .statementSequence
  | .block, t => t = .block
  | .typeExpression, _ | .variantFields, _ => True

/-- The types of nodes are followed, and the next token as long as it is known. Nothing is asked after a report. -/
def surviving : Abstraction (Option Token) where
  act
    | .lookahead, v, Q => ∀ t, (∀ u ∈ v, t = u) → Q t (some t)
    | .qualifies, v, Q => ∀ b, Q b v
    | .accept, _, Q => ∀ lexeme, Q lexeme none
    | .enter _, v, Q | .warnNext _, v, Q | .warnAccepted _, v, Q | .skipped _, v, Q => Q () v
    | .reject _, _, _ | .rejectClosing _, _, _ => True
    | .build (.ok node), v, Q => Q node v
    | .build (.error _), v, Q => Q .empty v
  call rule _ Q := ∀ (node : Node) w, rule.MayYield node.type → Q node w
  progress _ _ := True
  act_mono := by
    intro α action v P Q hPQ h
    cases action with
    | lookahead => exact fun t ht => hPQ t _ (h t ht)
    | qualifies | accept => exact fun a => hPQ a _ (h a)
    | enter p | warnNext code | warnAccepted code | skipped n => exact hPQ () v h
    | reject expected | rejectClosing closing => trivial
    | build node =>
      cases node with
      | ok node => exact hPQ node v h
      | error e => exact hPQ .empty v h
  call_mono hPQ h node w hnode := hPQ node w (h node w hnode)

namespace Script

variable {α β : Type}

/-- What a script yields has a property if nothing is rejected, even if nodes are lost. -/
def Makes (script : Script α) (P : α → Prop) : Prop := ∀ v, script.Ensures surviving v fun a _ => P a

/-- Every script goes on in some way. -/
theorem ensures_surviving (script : Script α) (v : Option Token) : script.Ensures surviving v fun _ _ => True := by
  induction script generalizing v with
  | pure a => trivial
  | bind first next ihfirst ihnext => exact ensures_bind.mpr ((ihfirst v).mono fun a w _ => ihnext a w)
  | act action =>
    cases action with
    | lookahead => exact fun _ _ => trivial
    | qualifies | accept => exact fun _ => trivial
    | build node => cases node <;> trivial
    | _ => trivial
  | call rule => exact fun _ _ _ => trivial
  | loop init step ih =>
    refine ⟨fun _ _ => True, trivial, fun a v _ => (ih a v).mono ?_⟩
    rintro (b | b) w -
    · trivial
    · exact ⟨trivial, trivial⟩

namespace Makes

variable {P : β → Prop}

/-- What the rest of a script makes, whatever comes before it. -/
theorem after {first : Script α} {next : α → Script β} (h : ∀ a, (next a).Makes P) : (first >>= next).Makes P :=
  fun v => ensures_bind.mpr ((ensures_surviving first v).mono fun a w _ => h a w)

/-- A script makes what its last part does, whatever the parts before it have made. -/
theorem bind {P' : α → Prop} {first : Script α} {next : α → Script β} (hfirst : first.Makes P')
    (h : ∀ a, P' a → (next a).Makes P) : (first >>= next).Makes P :=
  fun v => ensures_bind.mpr ((hfirst v).mono fun a w ha => h a ha w)

/-- What is given is made. -/
theorem pure {b : β} (h : P b) : (Pure.pure b : Script β).Makes P := fun _ => h

/-- Both branches make the same. -/
theorem ite {p : Prop} [Decidable p] {c d : Script β} (hc : c.Makes P) (hd : d.Makes P) :
    (if p then c else d).Makes P := by
  split
  · exact hc
  · exact hd

/-- What a loop makes whose rounds keep a property. -/
theorem loop {first : β} {step : β → Script (ForInStep β)} (hfirst : P first)
    (hstep : ∀ b, P b → (step b).Makes fun
      | .done c => P c
      | .yield c => P c) : (Script.loop first step).Makes P := by
  refine fun v => ⟨fun b _ => P b, hfirst, fun b v hb => (hstep b hb v).mono ?_⟩
  rintro (c | c) w hc
  · exact hc
  · exact ⟨hc, trivial⟩

/-- An identifier that is demanded is there. -/
theorem expectIdent {resume : TokenSet} {next : Option String → Script β} (h : ∀ ident, (next (some ident)).Makes P) :
    (Script.expectIdent resume >>= next).Makes P := by
  intro v t _
  show Ensures surviving (if decide (t = .ident) = true then _ else _) _ _
  refine ensures_ite.mpr ⟨fun _ lexeme => h lexeme _, fun _ => trivial⟩

variable {P : Node → Prop}

/-- What may come of a rule is known by its type. -/
theorem call {rule : Rule} (h : ∀ node : Node, rule.MayYield node.type → P node) : (Script.call rule).Makes P :=
  fun _ node _ hnode => h node hnode

/-- A node that is built, or the empty node. -/
theorem build {r : Except NodeError Node} {t : NodeType} (hbuilds : Node.Builds t r)
    (h : ∀ node : Node, node.type = .empty ∨ node.type = t → P node) : (Script.act (.build r)).Makes P := by
  intro v
  cases r with
  | ok node => exact h node (.inr (hbuilds.type rfl))
  | error e => exact h .empty (.inl rfl)

/-- A branch is made of its own type, or empty if it cannot be built. -/
theorem branch {t : NodeType} {ns : List Node} (h : ∀ node : Node, node.type = .empty ∨ node.type = t → P node) :
    (Script.branch t ns).Makes P := build (Node.builds_ofBranch ns) h

/-- A node whose parts are accepted by the slots of its type. -/
theorem accepted {t : NodeType} {slots : List Slot} {ns : List Node} (hshape : t.shape = .branch slots)
    (hslots : List.Forall₂ (fun slot node => slot.accepts node.type = true) slots ns) :
    (Script.branch t ns).Makes fun n => n.type = t := by
  intro v
  unfold Script.branch
  rw [ofBranch_eq_ok hshape hslots]
  rfl

/-- So is a list. -/
theorem list {t : NodeType} {ns : List Node} (h : ∀ node : Node, node.type = .empty ∨ node.type = t → P node) :
    (Script.list t ns).Makes P := by
  unfold Script.list
  split
  · exact pure (h .empty (.inl rfl))
  · exact build (Node.builds_ofList _) h

/-- So is a node of one value. -/
theorem terminal {t : NodeType} {value : String} (h : ∀ node : Node, node.type = .empty ∨ node.type = t → P node) :
    (Script.terminal t value).Makes P := build (Node.builds_ofValue value) h

/-- So is a node of several values. -/
theorem terminals {t : NodeType} {values : List String}
    (h : ∀ node : Node, node.type = .empty ∨ node.type = t → P node) : (Script.terminals t values).Makes P := by
  unfold Script.terminals
  exact ite (pure (h .empty (.inl rfl))) (build (Node.builds_ofValues values) h)

end Makes

/-! ## Expressions -/

variable {ctx : Context} {P : Node → Prop}

/-- What stands for a designator when nodes can be lost. -/
def Designates (n : Node) : Prop := n.type = .empty ∨ n.type ∈ NodeType.designators

/-- What stands for an expression when nodes can be lost. -/
def Expresses (n : Node) : Prop := n.type = .empty ∨ n.type ∈ NodeType.expressions

/-- What is a designator or empty is an expression or empty. -/
theorem Designates.expresses {n : Node} (h : Designates n) : Expresses n := h.imp_right mem_expressions_of_designator

/-- A node of a type is an expression if its type says so. -/
theorem expresses_of_type {t : NodeType} (ht : t ∈ NodeType.expressions) {n : Node}
    (h : n.type = .empty ∨ n.type = t) : Expresses n := h.imp_right fun hn => by rwa [hn]

/-- A type of designators makes one. -/
theorem designates_of_type {t : NodeType} (ht : t ∈ NodeType.designators) {n : Node}
    (h : n.type = .empty ∨ n.type = t) : Designates n := h.imp_right fun hn => by rwa [hn]

/-- A qualified identifier is a designator, or empty where none is found. -/
theorem makes_qualident : (qualident ctx).Makes Designates := by
  refine .after fun _ => .after fun first => ?_
  cases first with
  | none => exact .pure (.inl rfl)
  | some ident =>
    refine .after fun parts => ?_
    split
    · exact .terminal fun _ => designates_of_type (by decide)
    · exact .terminals fun _ => designates_of_type (by decide)

/-- A designator is one, or empty. -/
theorem makes_designator : (designator ctx).Makes Designates := by
  refine .after fun _ => .bind makes_qualident fun first hfirst => .loop hfirst fun selected hselected => ?_
  refine .after fun t => ?_
  split
  · exact .after fun _ => .bind (.branch fun _ => designates_of_type (by decide)) fun n hn => .pure hn
  · refine .after fun _ => .after fun _ => .after fun _ => ?_
    exact .bind (.branch fun _ => designates_of_type (by decide)) fun n hn => .pure hn
  · refine .after fun _ => .after fun _ => .after fun _ => .ite (.after fun _ => ?_) (.pure (.inl rfl))
    exact .bind (.branch fun _ => designates_of_type (by decide)) fun n hn => .pure hn
  · exact .pure hselected

/-- With a set or arguments it is an expression, or empty. -/
theorem makes_designatorOrFuncCall : (designatorOrFuncCall ctx).Makes Expresses := by
  refine .after fun _ => .bind makes_designator fun head hhead => .after fun _ => .ite (.after fun _ => ?_) ?_
  · exact .branch fun _ => expresses_of_type (by decide)
  · refine .after fun _ => .ite (.after fun _ => ?_) (.pure hhead.expresses)
    exact .branch fun _ => expresses_of_type (by decide)

/-- So is a factor. -/
theorem makes_factor : (factor ctx).Makes Expresses := by
  refine .after fun _ => .after fun t => ?_
  split
  · next literal hliteral =>
    have hmem : literal ∈ NodeType.expressions := by
      unfold literal? at hliteral
      split at hliteral <;> cases hliteral <;> decide
    exact .after fun _ => .terminal fun _ => expresses_of_type hmem
  · refine .after fun _ => .ite (.after fun _ => ?_) (.after fun _ => .ite makes_designatorOrFuncCall ?_)
    · exact .branch fun _ => expresses_of_type (by decide)
    · refine .after fun _ => .ite (.after fun _ => ?_) (.after fun _ => .after fun _ => .pure (.inl rfl))
      exact .bind (.call fun node hnode => hnode) fun inner hinner => .after fun _ => .ite (.pure hinner) (.pure (.inl rfl))

/-- So is the negation of one. -/
theorem makes_simpleTerm : (simpleTerm ctx).Makes Expresses := by
  refine .after fun _ => .after fun _ => .ite (.after fun _ => .after fun _ => ?_) makes_factor
  exact .branch fun _ => expresses_of_type (by decide)

/-- So is a row of operands, since each operator makes an expression. -/
theorem makes_leftAssociative {operator? : Token → Option NodeType} {operand : Script Node} {first : Node}
    (hoperator : ∀ t operator, operator? t = some operator → operator ∈ NodeType.expressions) (hfirst : Expresses first) :
    (leftAssociative operator? operand first).Makes Expresses := by
  refine .loop hfirst fun left hleft => .after fun t => ?_
  split
  · exact .pure hleft
  · next operator hsome =>
    refine .after fun _ => .after fun _ => .bind (.branch fun _ => ?_) fun n hn => .pure hn
    exact expresses_of_type (hoperator t operator hsome)

/-- So is a product. -/
theorem makes_term : (term ctx).Makes Expresses := by
  refine .after fun _ => .bind makes_simpleTerm fun first hfirst => makes_leftAssociative ?_ hfirst
  intro t operator hsome
  unfold multiplying? at hsome
  split at hsome <;> cases hsome <;> decide

/-- So is what may have a sign before it. -/
theorem makes_signedTerm : (signedTerm ctx).Makes Expresses := by
  refine .after fun t => ?_
  split
  · exact .after fun _ => makes_term
  · exact .after fun _ => .after fun _ => .branch fun _ => expresses_of_type (by decide)
  · exact makes_term

/-- So is a sum. -/
theorem makes_simpleExpression : (simpleExpression ctx).Makes Expresses := by
  refine .after fun _ => .bind makes_signedTerm fun first hfirst => makes_leftAssociative ?_ hfirst
  intro t operator hsome
  unfold adding? at hsome
  split at hsome <;> cases hsome <;> decide

/-- So is a relation. -/
theorem makes_expression : (expression ctx).Makes Expresses := by
  refine .after fun _ => .bind makes_simpleExpression fun left hleft => .after fun t => ?_
  split
  · exact .pure hleft
  · next operator hsome =>
    have hmem : operator ∈ NodeType.expressions := by
      unfold relation? at hsome
      split at hsome <;> cases hsome <;> decide
    exact .after fun _ => .after fun _ => .branch fun _ => expresses_of_type hmem

/-! ## Blocks and modules -/

/-- Statements are a sequence, or empty. -/
theorem makes_statementSequence :
    (statementSequence ctx).Makes fun n => n.type = .empty ∨ n.type = .statementSequence := by
  refine .after fun _ => .after fun _ => .ite (.after fun _ => .pure (.inl rfl)) (.after fun _ => .after fun _ => ?_)
  exact .list fun _ hn => hn

/-- A block is built of any parts: lists of its declarations and of its statements that may be absent. -/
theorem makes_block : (block ctx).Makes fun n => n.type = .block := by
  have hend : ∀ (declarations : List (List Node)) (statements : Node),
      (statements.type = .empty ∨ statements.type = .statementSequence) →
      (list .declarationList declarations.flatten >>= fun declarations =>
        branch .block [declarations, statements]).Makes fun n => n.type = .block := by
    intro declarations statements hstatements
    refine .bind (.list fun _ hn => hn) fun declarations hdeclarations => ?_
    exact .accepted rfl (by simp [hdeclarations, hstatements])
  have hnone : (Pure.pure .empty : Script Node).Makes fun n => n.type = .empty := .pure rfl
  refine .after fun _ => .after fun declarations => .after fun _ => .ite (.after fun _ => ?_) ?_
  · exact .bind (.call fun _ hnode => hnode) fun statements hstatements => .after fun _ => hend _ _ hstatements
  · exact .bind hnone fun statements hstatements => .after fun _ => hend _ _ (.inl hstatements)

/-- The body of a rule makes what the rule may yield. -/
theorem makes_body (rule : Rule) : (rule.body ctx).Makes fun n => rule.MayYield n.type := by
  cases rule with
  | expression => exact makes_expression
  | statementSequence => exact makes_statementSequence
  | block => exact makes_block
  | typeExpression | variantFields => exact fun v => (ensures_surviving _ v).mono fun _ _ _ => trivial

/-- Imports are a list, or empty. -/
theorem makes_imports : (imports ctx).Makes fun n => n.type = .empty ∨ n.type = .importList :=
  .after fun _ => .list fun _ hn => hn

/-- A priority is an expression, or empty. -/
theorem makes_optionalPriority : (optionalPriority ctx).Makes Expresses := by
  refine .after fun _ => .ite (.after fun _ => .after fun _ => ?_) (.pure (.inl rfl))
  exact .bind (.call fun node hnode => hnode) fun priority hpriority => .after fun _ => .ite (.pure hpriority) (.pure (.inl rfl))

/-- An identifier that was found makes a node of it. -/
theorem makes_identNode {ident : String} : (identNode (some ident)).Makes fun n => n.type = .ident := fun _ => rfl

/-- A definition module is always built, if it has a name. -/
theorem makes_definitionModule : (definitionModule ctx).Makes fun n => n.type = .definitionModule := by
  have hend : ∀ (ident : String) (imports : Node) (definitions : List (List Node)),
      (imports.type = .empty ∨ imports.type = .importList) →
      (identNode (some ident) >>= fun ident => list .definitionList definitions.flatten >>= fun definitions =>
        branch .definitionModule [ident, imports, definitions]).Makes fun n => n.type = .definitionModule := by
    intro ident imports definitions himports
    refine .bind makes_identNode fun ident hident => .bind (.list fun _ hn => hn) fun definitions hdefinitions => ?_
    exact .accepted rfl (by simp [hident, himports, hdefinitions])
  refine .after fun _ => .after fun _ => .after fun _ => .expectIdent fun ident => .after fun _ => ?_
  refine .bind makes_imports fun imports himports => .after fun definitions => .after fun ended => .after fun _ => ?_
  exact .ite (.after fun _ => .after fun _ => .after fun _ => hend _ _ _ himports) (hend _ _ _ himports)

/-- So is a program module. -/
theorem makes_programModule {type : NodeType} (hshape : type.shape = .branch
      [NodeType.identSlot, NodeType.optionalExpressionSlot, .optional [.importList], .required [.block]]) :
    (programModule ctx type).Makes fun n => n.type = type := by
  refine .after fun _ => .after fun _ => .expectIdent fun ident => .bind makes_optionalPriority fun priority hpriority => ?_
  refine .after fun _ => .bind makes_imports fun imports himports => .bind (.call fun _ hnode => hnode) fun block hblock => ?_
  have hblock : block.type = .block := hblock
  have hend : (identNode (some ident) >>= fun ident => branch type [ident, priority, imports, block]).Makes
      fun n => n.type = type := by
    refine .bind makes_identNode fun ident hident => .accepted hshape ?_
    obtain hpriority | hpriority := hpriority <;> simp [hident, hpriority, himports, hblock]
  exact .after fun closing => .after fun _ => .ite (.after fun _ => hend) hend

/-- So is an implementation module. -/
theorem makes_implementationModule : (implementationModule ctx).Makes fun n => n.type = .implementationModule :=
  .after fun _ => .after fun _ => makes_programModule rfl

/-- A unit yields a module of its kind. -/
theorem makes_unit (kind : UnitKind) : (unit ctx kind).Makes fun n => n.type ∈ kind.moduleTypes := by
  have hend : ∀ {t : NodeType} {script : Script Node}, t ∈ kind.moduleTypes → script.Makes (fun n => n.type = t) →
      (script >>= fun module => expectEnd >>= fun _ => Pure.pure module).Makes fun n => n.type ∈ kind.moduleTypes := by
    intro t script ht hscript
    refine .bind hscript fun module hmodule => .after fun _ => .pure ?_
    rw [hmodule]
    exact ht
  cases kind with
  | definition => exact hend (by simp [UnitKind.moduleTypes]) makes_definitionModule
  | implementation =>
    intro v t _
    refine ensures_ite.mpr ⟨fun hheading => ?_, fun _ => trivial⟩
    -- The second lookahead finds what the first one did.
    intro u hu
    obtain rfl : u = t := hu t rfl
    refine ensures_ite.mpr ⟨fun _ => ?_, fun himplementation => ensures_ite.mpr ⟨fun _ => ?_, fun hprogram => ?_⟩⟩
    · exact hend (by simp [UnitKind.moduleTypes]) makes_implementationModule _
    · exact hend (by simp [UnitKind.moduleTypes]) (makes_programModule rfl) _
    · rw [TokenSet.contains_union] at hheading
      simp [himplementation, hprogram] at hheading

/-- A unit goes on to the end of the input. -/
theorem ends_unit (kind : UnitKind) (v : Option Token) :
    (unit ctx kind).Ensures surviving v fun _ w => w = some .eof := by
  have hend : ∀ (script : Script Node) (v : Option Token),
      (script >>= fun module => expectEnd >>= fun _ => Pure.pure module).Ensures surviving v
        fun _ w => w = some .eof := by
    refine fun script v => ensures_bind.mpr ((ensures_surviving script v).mono fun module w _ t _ => ?_)
    refine ensures_ite.mpr ⟨fun heof => ?_, fun _ => trivial⟩
    obtain rfl : t = .eof := by simpa using heof
    rfl
  cases kind with
  | definition => exact hend _ v
  | implementation =>
    intro t _
    refine ensures_ite.mpr ⟨fun hheading => ?_, fun _ => trivial⟩
    intro u hu
    refine ensures_ite.mpr ⟨fun _ => hend _ _, fun _ => ensures_ite.mpr ⟨fun _ => hend _ _, fun _ => hend _ _⟩⟩

end Script

end Modula
