import Modula.Parser.Module
import Modula.Proofs.Parser.Progress

/-!
# Progress of the productions

Every loop of a production makes progress, whatever the input: a round that goes on has taken an operator, a separator
or the first token of an item. The lemmas go through the productions in the order of their definitions, as far as they
are parts of others; those of which more is to be said come with their termination. Productions that call no rule are
shown to progress without calls as well.
-/

set_option autoImplicit false

namespace Modula

namespace Script

variable {ctx : Context} {calls : Bool} {limit most : Nat}

/-! ## Loops in expressions -/

/-- Every further expression of a list takes its comma. -/
@[simp] theorem progresses_expressionList : expressionList.Progresses true := by
  simp [expressionList, progresses_separated]

/-- Arguments loop over expressions only. -/
@[simp] theorem progresses_actualParameters : (actualParameters ctx).Progresses true := by simp [actualParameters]

/-- A designator is a qualified identifier and a loop that takes a symbol for each selector. -/
theorem designator_eq (ctx : Context) : ∃ step : Node → Script (ForInStep Node),
    designator ctx = (enter .designator >>= fun _ => qualident ctx >>= fun first => loop first step) ∧
      ∀ selected limit most, most ≤ limit → Rounds limit most (step selected) := by
  refine ⟨_, rfl, fun selected limit most hmost => Rounds.lookahead fun t => ?_⟩
  split
  · exact Consumes.skip true (by simp) (fun _ => hmost) (by simp)
  · exact Consumes.skip true (by simp) (fun _ => hmost) (by simp)
  · exact Consumes.skip true (by simp) (fun _ => hmost) (by simp)
  · exact Consumes.pure (by simp)

/-- Every selector takes its first symbol, and none starts at the end. -/
@[simp] theorem progresses_designator : (designator ctx).Progresses true := by
  obtain ⟨step, heq, hrounds⟩ := designator_eq ctx
  rw [heq]
  simp only [progresses_bind, progresses_enter, progresses_qualident, true_and]
  exact fun _ first => progresses_loop fun selected limit most hmost => hrounds selected limit most (hmost rfl).le

/-- An element has no loop. -/
@[simp] theorem progresses_element : element.Progresses true := by simp [element]

/-- Every further element takes its comma. -/
@[simp] theorem progresses_setValue : (setValue ctx).Progresses true := by simp [setValue, progresses_separated]

/-- What follows a designator is entered once. -/
@[simp] theorem progresses_designatorOrFuncCall : (designatorOrFuncCall ctx).Progresses true := by
  simp [designatorOrFuncCall]

/-- A factor has no loop of its own. -/
@[simp] theorem progresses_factor : (factor ctx).Progresses true := by
  unfold factor
  simp only [progresses_bind, progresses_enter, progresses_lookahead, true_and]
  intro _ t
  split <;> simp

/-- Neither has the negation of one. -/
@[simp] theorem progresses_simpleTerm : (simpleTerm ctx).Progresses true := by simp [simpleTerm]

/-- Operators of a table are symbols, so a round that finds one takes it. -/
theorem rounds_leftAssociative {operator? : Token → Option NodeType} {operand : Script Node} {left : Node}
    (heof : operator? .eof = none) (hoperand : operand.Progresses true) (hmost : most ≤ limit) :
    Rounds limit most (lookahead >>= fun t =>
      match operator? t with
      | none => Pure.pure (.done left)
      | some operator => skip >>= fun _ => operand >>= fun right =>
          branch operator [left, right] >>= fun node => Pure.pure (.yield node)) := by
  refine Rounds.lookahead fun t => ?_
  split
  · exact Consumes.pure (by simp)
  · next operator hoperator =>
    refine Consumes.skip true ?_ (fun _ => hmost) (by simp [hoperand])
    rintro rfl
    simp_all

/-- Every further operand takes its operator, if the end is none. -/
theorem progresses_leftAssociative {operator? : Token → Option NodeType} {operand : Script Node} {first : Node}
    (heof : operator? .eof = none) (hoperand : operand.Progresses true) :
    (leftAssociative operator? operand first).Progresses true :=
  progresses_loop fun _ _ _ hmost => rounds_leftAssociative heof hoperand (hmost rfl).le

/-- The end is no operator of multiplication. -/
@[simp] theorem progresses_term : (term ctx).Progresses true := by
  have h : ∀ first, (leftAssociative multiplying? (simpleTerm ctx) first).Progresses true :=
    fun first => progresses_leftAssociative rfl (by simp)
  simp [term, h]

/-- A sign is taken once. -/
@[simp] theorem progresses_signedTerm : (signedTerm ctx).Progresses true := by
  unfold signedTerm
  simp only [progresses_bind, progresses_lookahead, true_and]
  intro t
  split <;> simp

/-- The end is no operator of addition. -/
@[simp] theorem progresses_simpleExpression : (simpleExpression ctx).Progresses true := by
  have h : ∀ first, (leftAssociative adding? (term ctx) first).Progresses true :=
    fun first => progresses_leftAssociative rfl (by simp)
  simp [simpleExpression, h]

/-! ## Loops in types -/

/-- A range has no loop. -/
@[simp] theorem progresses_range : (range ctx).Progresses true := by simp [range]

/-- Nor has one with its brackets. -/
@[simp] theorem progresses_subrange {base : Node} : (subrange ctx base).Progresses true := by
  simp [subrange, Option.forall]

/-- A name loops over its parts only. -/
@[simp] theorem progresses_namedOrSubrange : (namedOrSubrange ctx).Progresses true := by simp [namedOrSubrange]

/-- An enumeration loops over its values only. -/
@[simp] theorem progresses_enumType : (enumType ctx).Progresses calls := by simp [enumType]

/-- A countable type is entered once. -/
@[simp] theorem progresses_countableType : (countableType ctx).Progresses true := by simp [countableType]

/-- Fields loop over their names only. -/
@[simp] theorem progresses_fieldList : (fieldList ctx).Progresses true := by simp [fieldList]

/-- Every further field list takes its semicolon. -/
theorem progresses_fieldLists {follow : TokenSet} {item : Script Node} (h : item.Progresses calls) :
    (fieldLists follow item).Progresses calls := by
  simp [fieldLists, progresses_semicolonSeparated, h]

/-- So do the field lists of a record. -/
@[simp] theorem progresses_fieldListSequence : (fieldListSequence ctx).Progresses true := by
  simp [fieldListSequence, progresses_fieldLists]

/-- Variant fields are left to their rule. -/
@[simp] theorem progresses_variantFieldList : (variantFieldList ctx).Progresses true := by simp [variantFieldList]

/-- Field lists with variants take their semicolons, too. -/
@[simp] theorem progresses_variantFieldListSeq : (variantFieldListSeq ctx).Progresses true := by
  simp [variantFieldListSeq, progresses_fieldLists]

/-- A label has no loop. -/
@[simp] theorem progresses_caseLabels : caseLabels.Progresses true := by simp [caseLabels]

/-- Every further label takes its comma. -/
@[simp] theorem progresses_caseLabelList : caseLabelList.Progresses true := by
  simp [caseLabelList, progresses_separated]

/-- A variant loops over its labels and its fields. -/
@[simp] theorem progresses_variant : (variant ctx).Progresses true := by simp [variant]

/-- A formal type loops over the parts of its name only. -/
@[simp] theorem progresses_simpleFormalType : (simpleFormalType ctx).Progresses calls := by simp [simpleFormalType]

/-- An attribute has no loop. -/
@[simp] theorem progresses_passing : passing.Progresses calls := by simp [passing]

/-- Nor has its type any other than that of its name. -/
@[simp] theorem progresses_attributedFormalType : (attributedFormalType ctx).Progresses calls := by
  simp [attributedFormalType]

/-- A formal type is entered once. -/
@[simp] theorem progresses_formalType : (formalType ctx).Progresses calls := by simp [formalType]

/-- A result loops over the parts of its name only. -/
@[simp] theorem progresses_resultType : (resultType ctx).Progresses calls := by simp [resultType]

/-- Every further formal type takes its comma. -/
@[simp] theorem progresses_procedureType : (procedureType ctx).Progresses calls := by
  simp [procedureType, progresses_separated]

/-- Parameters loop over their names only. -/
@[simp] theorem progresses_simpleFormalParams {passing : Option NodeType} :
    (simpleFormalParams ctx passing).Progresses calls := by
  cases passing <;> simp [simpleFormalParams]

/-- Parameters are entered once, with an attribute or without. -/
@[simp] theorem progresses_formalParams : (formalParams ctx).Progresses calls := by simp [formalParams]

/-- Every further group of parameters takes its semicolon. -/
@[simp] theorem progresses_formalParamList : (formalParamList ctx).Progresses calls := by
  simp [formalParamList, progresses_semicolonSeparated]

/-- A signature loops over its parameters only. -/
@[simp] theorem progresses_procedureSignature : (procedureSignature ctx).Progresses calls := by
  simp [procedureSignature, Option.forall]

/-! ## Loops in statements -/

/-- What follows a designator in a statement is entered once. -/
@[simp] theorem progresses_assignmentOrProcCall : (assignmentOrProcCall ctx).Progresses true := by
  simp [assignmentOrProcCall]

/-- What is returned is entered once. -/
@[simp] theorem progresses_returnStatement : (returnStatement ctx).Progresses true := by simp [returnStatement]

/-- The statements in it are left to their rule. -/
@[simp] theorem progresses_withStatement : (withStatement ctx).Progresses true := by simp [withStatement]

/-- The statements for all other cases are left to their rule, too. -/
@[simp] theorem progresses_elsePart : elsePart.Progresses true := by simp [elsePart]

/-- Every further condition takes its word. -/
@[simp] theorem progresses_elsifs {follow : TokenSet} : (elsifs follow).Progresses true := by
  unfold elsifs
  refine progresses_bind.mpr ⟨progresses_loop fun branches limit most hmost => ?_, by simp⟩
  exact rounds_separator (by simp) hmost (by simp)

/-- A conditional statement loops over its further conditions only. -/
@[simp] theorem progresses_ifStatement : (ifStatement ctx).Progresses true := by simp [ifStatement, Option.forall]

/-- A case loops over its labels only. -/
@[simp] theorem progresses_caseBranch : (caseBranch ctx).Progresses true := by simp [caseBranch]

/-- Every further case takes its bar. -/
@[simp] theorem progresses_caseStatement : (caseStatement ctx).Progresses true := by
  simp [caseStatement, progresses_barred]

/-- A loop of the program is none of the parser. -/
@[simp] theorem progresses_loopStatement : (loopStatement ctx).Progresses true := by simp [loopStatement]

/-- Nor is one with a condition before the statements. -/
@[simp] theorem progresses_whileStatement : (whileStatement ctx).Progresses true := by simp [whileStatement]

/-- Nor is one with a condition after the statements. -/
@[simp] theorem progresses_repeatStatement : (repeatStatement ctx).Progresses true := by simp [repeatStatement]

/-- Nor is one over a range. -/
@[simp] theorem progresses_forStatement : (forStatement ctx).Progresses true := by simp [forStatement, Option.forall]

/-- Leaving a loop is one word. -/
@[simp] theorem progresses_exitStatement : exitStatement.Progresses calls := by simp [exitStatement]

/-- A statement is entered once, by its own token. -/
@[simp] theorem progresses_statement : (statement ctx).Progresses true := by
  unfold statement
  simp only [progresses_bind, progresses_enter, progresses_lookahead, true_and]
  intro _ t
  split <;> simp

/-! ## Loops in declarations -/

/-- A record of variable size loops over its field lists only. -/
@[simp] theorem progresses_varSizeRecordType : (varSizeRecordType ctx).Progresses true := by
  simp [varSizeRecordType, Option.forall]

/-- A declared type is entered once. -/
@[simp] theorem progresses_typeDeclarationTail : (typeDeclarationTail ctx).Progresses true := by
  simp [typeDeclarationTail]

/-- A priority has no loop. -/
@[simp] theorem progresses_modulePriority : (modulePriority ctx).Progresses true := by simp [modulePriority]

/-- Nor has one that may be missing. -/
@[simp] theorem progresses_optionalPriority : (optionalPriority ctx).Progresses true := by simp [optionalPriority]

/-- At the end of a heading symbols are skipped until one can go on. -/
@[simp] theorem progresses_endHeading {body : TokenSet} : (endHeading body).Progresses calls := by simp [endHeading]

/-- An export loops over its names only. -/
@[simp] theorem progresses_exportClause : (exportClause ctx).Progresses calls := by simp [exportClause]

end Script

end Modula
