import Modula.Proofs.Parser.Divisions

/-!
# Statements up to a missing semicolon

Every production of expressions and statements comes to the seam in the same way with the semicolon and without it. What
an expression stops at is nothing that a statement starts with, and no semicolon either; only a `RETURN` looks for more.
A sequence of statements gets over the seam. The productions are gone through in the order of their definitions.
-/

set_option autoImplicit false

namespace Modula

open SymbolReader ParserState

namespace Script

variable {ctx : Context}

/-- A list of expressions cannot start with a semicolon. -/
theorem refuses_expressionList : expressionList.Refuses := rfl

/-- Nor can a designator. -/
theorem refuses_designator : (designator ctx).Refuses := rfl

/-- Nor can a factor. -/
theorem refuses_factor : (factor ctx).Refuses := by simp [Refuses, factor, literal?, Production.first]

/-- Nor can the negation of one. -/
theorem refuses_simpleTerm : (simpleTerm ctx).Refuses := refuses_factor

/-- Nor can a product. -/
theorem refuses_term : (term ctx).Refuses := refuses_simpleTerm.bind

/-- Nor can what may have a sign before it. -/
theorem refuses_signedTerm : (signedTerm ctx).Refuses := refuses_term

/-- Nor can a sum. -/
theorem refuses_simpleExpression : (simpleExpression ctx).Refuses := refuses_signedTerm.bind

end Script

namespace Seam

variable {ctx : Context} {σ : Seam ctx} {limit : Nat} {α : Type}

/-! ## Expressions -/

/-- A qualified identifier ends at the seam since no point is there. -/
theorem divides_qualident : σ.Divides limit (Script.qualident ctx) fun _ => True := by
  refine .enter (.expectIdent fun first => .bind (.loop (fun parts => ?_) fun parts => .qualifies ?_ .pure) fun parts => ?_)
  · simp [Script.Idles, Token.ofSeams, Action.outset]
  · exact .continued .accept fun _ => .pure
  · split
    · exact .terminal
    · exact .terminals

/-- A row ends at the seam if its separator is not found there. -/
theorem divides_separated {t : Token} (ht : t ∉ Token.ofSeams) {item : Script α}
    (hitem : σ.Divides limit item fun _ => True) (hrefuses : item.Refuses) :
    σ.Divides limit (Script.separated t item) fun _ => True := by
  refine .continued hitem fun first => .bind (.loop ?_ fun items => .nextIs fun _ => .ite ?_ .pure) fun _ => .pure
  · intro items refused u hu
    have hne : u ≠ t := fun h => ht (h ▸ hu)
    simp [hne]
  · exact .skip (.refuses hrefuses.bind (.continued hitem fun _ => .pure))

/-- No operator comes first at the seam. -/
theorem continues_leftAssociative {operator? : Token → Option NodeType} (hnone : ∀ t ∈ Token.ofSeams, operator? t = none)
    {operand : Script Node} (hoperand : σ.Divides limit operand fun _ => True) (hrefuses : operand.Refuses)
    (first : Node) : σ.Continues limit (Script.leftAssociative operator? operand first) fun _ => True := by
  refine .loop (fun left refused t ht => ?_) fun left => .lookahead fun t => ?_
  · simp [hnone t ht]
  · split
    · exact .pure
    · exact .skip (.refuses hrefuses.bind (.continued hoperand fun _ => .bind .branch fun _ => .pure))

variable (hrecurs : σ.Recurs limit)

include hrecurs

/-- So does a list of expressions, since no comma is found there. -/
theorem divides_expressionList : σ.Divides limit Script.expressionList fun _ => True :=
  .enter (divides_separated (by decide) (.call_expression hrecurs) rfl)

/-- The seam is not between parentheses. -/
theorem divides_actualParameters : σ.Divides limit (Script.actualParameters ctx) fun _ => True := by
  refine .enter (.skip (.refuses ?_ (.starts fun _ => .ite ?_ ?_)))
  · simp [Script.Refuses, Production.first]
  · exact .continued (divides_expressionList hrecurs) fun _ => .expect (by decide) .list
  · exact .continued .pure fun _ => .expect (by decide) .list

/-- A designator ends at the seam since no selector is there. -/
theorem divides_designator : σ.Divides limit (Script.designator ctx) fun _ => True := by
  refine .enter (.continued divides_qualident fun first => .loop (fun _ => ?_) fun selected => .lookahead fun t => ?_)
  · simp [Script.Idles, Token.ofSeams]
  · split
    · exact .skip (.bind .branch fun _ => .pure)
    · exact .skip (.expectIdent fun ident => .bind .terminal fun _ => .bind .branch fun _ => .pure)
    · refine .skip (.refuses Script.refuses_expressionList.bind (.continued (divides_expressionList hrecurs) fun _ =>
        .expect (by decide) ?_))
      exact .bind .list fun _ => .bind .branch fun _ => .pure
    · exact .pure

/-- An element ends at the seam since no second bound is there. -/
theorem divides_element : σ.Divides limit Script.element fun _ => True := by
  refine .enter (.continued (.call_expression hrecurs) fun _ => .nextIs (by decide) ?_ .pure)
  exact .skip (.call_expression hrecurs fun _ => .branch)

/-- The seam is not between braces. -/
theorem divides_setValue : σ.Divides limit (Script.setValue ctx) fun _ => True := by
  refine .enter (.skip (.refuses ?_ (.starts fun _ => .ite ?_ ?_)))
  · simp [Script.Refuses, Production.first]
  · exact .continued (divides_separated (by decide) (divides_element hrecurs) rfl) fun _ => .expect (by decide) .list
  · exact .continued .pure fun _ => .expect (by decide) .list

/-- Neither a brace nor a parenthesis is at the seam. -/
theorem divides_designatorOrFuncCall : σ.Divides limit (Script.designatorOrFuncCall ctx) fun _ => True := by
  refine .enter (.continued (divides_designator hrecurs) fun head => .starts ?_ ?_ (.starts ?_ ?_ .pure))
  · simp [Token.ofSeams, Production.first]
  · exact .continued (divides_setValue hrecurs) fun _ => .branch
  · simp [Token.ofSeams, Production.first]
  · exact .continued (divides_actualParameters hrecurs) fun _ => .branch

/-- A factor may end at the seam, with the symbol that ends it. -/
theorem divides_factor : σ.Divides limit (Script.factor ctx) fun _ => True := by
  refine .enter (.lookahead fun t => ?_)
  split
  · exact .continued .accept fun _ => .terminal
  · refine .starts fun _ => .ite ?_ (.starts fun _ => .ite (divides_designatorOrFuncCall hrecurs) (.nextIs fun _ => ?_))
    · exact .continued (divides_setValue hrecurs) fun _ => .branch
    · exact .ite (.skip (.call_expression hrecurs fun _ => .expect (by decide) .pure)) .reject

/-- So may the negation of one. -/
theorem divides_simpleTerm : σ.Divides limit (Script.simpleTerm ctx) fun _ => True := by
  refine .enter (.nextIs fun _ => .ite (.skip (.refuses Script.refuses_factor.bind ?_)) (divides_factor hrecurs))
  exact .continued (divides_factor hrecurs) fun _ => .branch

/-- A product ends at the seam since no operator is there. -/
theorem divides_term : σ.Divides limit (Script.term ctx) fun _ => True :=
  .enter (.continued (divides_simpleTerm hrecurs)
    (continues_leftAssociative (by decide) (divides_simpleTerm hrecurs) Script.refuses_simpleTerm))

/-- A sign does not stand before the seam. -/
theorem divides_signedTerm : σ.Divides limit (Script.signedTerm ctx) fun _ => True := by
  refine .lookahead fun t => ?_
  split
  · exact .skip (.refuses Script.refuses_term (divides_term hrecurs))
  · exact .skip (.refuses Script.refuses_term.bind (.continued (divides_term hrecurs) fun _ => .branch))
  · exact divides_term hrecurs

/-- A sum ends at the seam since no operator is there. -/
theorem divides_simpleExpression : σ.Divides limit (Script.simpleExpression ctx) fun _ => True :=
  .enter (.continued (divides_signedTerm hrecurs)
    (continues_leftAssociative (by decide) (divides_term hrecurs) Script.refuses_term))

/-- A relation ends at the seam since no second one is there. -/
theorem divides_expression : σ.Divides limit (Script.expression ctx) fun _ => True := by
  refine .enter (.continued (divides_simpleExpression hrecurs) fun left =>
    ⟨.idles (a := left) ?_ trivial, .lookahead fun t => ?_⟩)
  · simp [Script.Idles, Token.ofSeams, Script.relation?]
  · split
    · exact .pure
    · refine .skip (.refuses Script.refuses_simpleExpression.bind ?_)
      exact .continued (divides_simpleExpression hrecurs) fun _ => .branch

/-! ## Statements -/

/-- A call may end at the seam without parentheses. -/
theorem divides_assignmentOrProcCall : σ.Divides limit (Script.assignmentOrProcCall ctx) fun _ => True := by
  refine .enter (.continued (divides_designator hrecurs) fun target => .nextIs (by decide) ?_ (.starts ?_ ?_ ?_))
  · exact .skip (.call_expression hrecurs fun _ => .branch)
  · simp [Token.ofSeams, Production.first]
  · exact .continued (divides_actualParameters hrecurs) fun _ => .branch
  · exact .bind .pure fun _ => .branch

omit hrecurs in
/-- A `RETURN` before the seam does not take the second statement for its value. -/
theorem pauses_starts_expression (hlast : σ.last = .kwReturn) :
    σ.Pauses (Script.starts ctx .expression) (· = false) := by
  have hother : ∀ t ∈ Token.ofSeams, t ≠ .ident → (Production.expression.first ctx).contains t = false := by
    simp [Token.ofSeams, Production.first]
  have hnext := hother _ (Token.mem_ofSeams σ.starts_next) (σ.next_ne_ident hlast)
  exact .inr ⟨false, rfl, by simp [Production.first], by simp [hnext]⟩

/-- A return with or without a value, when the parser is at its first word. -/
theorem Before.returnStatement {front : List Symbol} {s s' t t' : ParserState} {a b : Node} {limit' : Nat}
    (h : σ.Before front s t) (hreturn : s.reader.next.token = .kwReturn)
    (hs : Script.Advances (Rule.body ctx) limit (Script.returnStatement ctx) s a s')
    (ht : Script.Advances (Rule.body ctx) limit' (Script.returnStatement ctx) t b t')
    (hzero : s'.reader.reporter.errorCount = 0) : a = b ∧ (σ.Beyond s' t' ∨ σ.At s' t' ∧ True) := by
  have hvalue : σ.Divides limit (do
      let value ← if ← Script.starts ctx .expression then Script.call .expression else Pure.pure .empty
      Script.branch .returnStatement [value]) fun _ => True :=
    .starts fun _ => .ite (.continued (.call_expression hrecurs) fun _ => .branch) (.continued .pure fun _ => .branch)
  have hpauses (hlast : σ.last = .kwReturn) : σ.Pauses (do
      let value ← if ← Script.starts ctx .expression then Script.call .expression else Pure.pure .empty
      Script.branch .returnStatement [value]) fun _ => True := by
    refine .bind (pauses_starts_expression hlast) ?_
    rintro _ rfl
    exact .idles (fun _ _ _ => rfl) trivial
  have hs := hs.of_act_bind
  have ht := ht.of_act_bind
  have hbefore := (h.perform (.enter .returnStatement) rfl).2
  have hnext := h.next_perform (.enter .returnStatement) rfl
  obtain ⟨s₁, t₁, hs, ht, others, -, -, hbefore' | ⟨-, hlast, hat⟩⟩ := hbefore.skip hs ht
  · exact hvalue hs ht hzero hbefore'
  · rw [hnext, hreturn] at hlast
    obtain ⟨hsame, hat⟩ := hat.run (hpauses hlast.symm) hs ht hzero
    exact ⟨hsame, .inr hat⟩

/-- Statements in it stand before its end. -/
theorem divides_withStatement : σ.Divides limit (Script.withStatement ctx) fun _ => True := by
  refine .enter (.skip (.refuses Script.refuses_designator.bind (.continued (divides_designator hrecurs) fun record => ?_)))
  exact .expect (by decide) (.call_sequence hrecurs fun _ => .expect .branch)

/-- Without its word there is nothing for all other cases. -/
theorem continues_elsePart : σ.Continues limit Script.elsePart fun _ => True := by
  have hsequence : σ.Divides limit (.call .statementSequence) fun _ => True :=
    (Divides.call_sequence hrecurs).mono fun _ => False.elim
  exact .nextIs (by decide) (.skip (.refuses rfl hsequence)) .pure

/-- Without their word there are no further conditions. -/
theorem continues_elsifs {follow : TokenSet} : σ.Continues limit (Script.elsifs follow) fun _ => True := by
  refine .bind (.loop ?_ fun branches => .nextIs fun _ => .ite ?_ .pure) fun _ => .pure
  · simp [Script.Idles, Token.ofSeams]
  · exact .skip (.call_expression hrecurs fun _ => .expect (by decide) (.call_sequence hrecurs fun _ =>
      .continued (.act rfl) fun _ => .pure))

/-- Conditional statements end with their last word. -/
theorem divides_ifStatement : σ.Divides limit (Script.ifStatement ctx) fun _ => True := by
  refine .enter (.skip (.call_expression hrecurs fun _ => .expect (by decide) (.call_sequence hrecurs fun _ => ?_)))
  refine .continued (continues_elsifs hrecurs).divides fun alternatives => ?_
  cases alternatives with
  | none => exact .pure
  | some alternatives =>
    exact .bind (continues_elsePart hrecurs) fun _ => .expect (by decide) (.bind .list fun _ => .branch)

/-- A label ends at the seam since no second bound is there. -/
theorem divides_caseLabels : σ.Divides limit Script.caseLabels fun _ => True := by
  refine .enter (.continued (.call_expression hrecurs) fun _ => .nextIs (by decide) ?_ .branch)
  exact .skip (.call_expression hrecurs fun _ => .branch)

/-- A case does not stop at the seam, since its statements do not. -/
theorem divides_caseBranch : σ.Divides limit (Script.caseBranch ctx) fun _ => False := by
  refine .enter (.continued ?_ fun _ => .expect (by decide) (.call_sequence hrecurs fun _ => .act rfl))
  exact .enter (.continued (divides_separated (by decide) (divides_caseLabels hrecurs) rfl) fun _ => .list)

/-- So it is with all cases between bars. -/
theorem divides_barred : σ.Divides limit (Script.barred ctx .caseBranch (Script.caseBranch ctx)) fun _ => False := by
  have hround : ∀ items : List Node, σ.Divides limit (do
      unless ← Script.nextIs .bar do return .done items
      Script.skip
      return .yield items : Script (ForInStep (List Node))) fun _ => False :=
    fun items => .skipBar .pure .pure
  refine .followed (.loop_never fun items => .starts fun _ => .ite ?_ ?_) fun _ => .pure
  · exact .followed (divides_caseBranch hrecurs) fun _ => .followed .pure hround
  · exact .followed .pure hround

/-- Statements by cases end with their last word. -/
theorem divides_caseStatement : σ.Divides limit (Script.caseStatement ctx) fun _ => True := by
  refine .enter (.skip (.call_expression hrecurs fun _ => .expect (by decide) (.refuses ?_ ?_)))
  · simp [Script.Refuses, Script.barred, Script.elsePart, Production.first]
  · refine .followed (divides_barred hrecurs) fun _ => .continued (continues_elsePart hrecurs).divides fun _ => ?_
    exact .expect (by decide) (.bind .list fun _ => .branch)

/-- A loop ends with its last word. -/
theorem divides_loopStatement : σ.Divides limit (Script.loopStatement ctx) fun _ => True :=
  .enter (.skip (.call_sequence hrecurs fun _ => .expect .branch))

/-- So does one with a condition before the statements. -/
theorem divides_whileStatement : σ.Divides limit (Script.whileStatement ctx) fun _ => True :=
  .enter (.skip (.call_expression hrecurs fun _ => .expect (by decide) (.call_sequence hrecurs fun _ => .expect .branch)))

/-- With a condition after the statements a loop ends with an expression. -/
theorem divides_repeatStatement : σ.Divides limit (Script.repeatStatement ctx) fun _ => True :=
  .enter (.skip (.call_sequence hrecurs fun _ => .expect (.call_expression hrecurs fun _ => .branch)))

/-- A loop over a range ends with its last word. -/
theorem divides_forStatement : σ.Divides limit (Script.forStatement ctx) fun _ => True := by
  have hbody : ∀ control first last step follow, σ.Continues limit (do
      unless ← Script.expect .kwDo follow do return .empty
      let body ← Script.call .statementSequence
      unless ← Script.expect .kwEnd follow do return .empty
      let control ← Script.terminal .ident control
      Script.branch .forStatement [control, first, last, step, body]) fun _ => True :=
    fun control first last step follow =>
      .expect (by decide) (.call_sequence hrecurs fun _ => .expect (.bind .terminal fun _ => .branch))
  refine .enter (.skip (.expectIdent fun control => .expect (by decide) (.call_expression hrecurs fun first =>
    .expect (by decide) (.call_expression hrecurs fun last => .nextIs (by decide) ?_ ?_))))
  · exact .skip (.call_expression hrecurs fun _ => hbody ..)
  · exact .bind .pure fun _ => hbody ..

omit hrecurs in
/-- Leaving a loop is one word before the seam. -/
theorem divides_exitStatement : σ.Divides limit Script.exitStatement fun _ => True := .skip .branch

/-- Every statement may end at the seam, and does so in both parses. -/
theorem divides_statement : σ.Divides limit (Script.statement ctx) fun _ => True := by
  refine .enter ?_
  intro s s' t t' a b limit' front hs ht hzero hst
  obtain ⟨hsame, hbefore⟩ := hst.perform .lookahead rfl
  have hnext := hst.next_perform .lookahead rfl
  have hs := hs.of_act_bind
  have ht := ht.of_act_bind
  rw [← hsame] at ht
  rw [hst.lookahead_perform] at hs ht
  by_cases hreturn : s.reader.next.token = .kwReturn
  · rw [hreturn] at hs ht
    exact hbefore.returnStatement hrecurs (by rw [hnext, hreturn]) hs ht hzero
  have hother : s.reader.next.token.wellFormed ≠ .kwReturn := mt (wellFormed_eq_iff (by simp)).mp hreturn
  have hnone : σ.Divides limit (Script.noAlternative ctx .statement) fun _ => True := .reject
  generalize s.reader.next.token.wellFormed = u at hs ht hother
  cases u with
  | ident => exact divides_assignmentOrProcCall hrecurs hs ht hzero hbefore
  | kwReturn => exact (hother rfl).elim
  | kwWith => exact divides_withStatement hrecurs hs ht hzero hbefore
  | kwIf => exact divides_ifStatement hrecurs hs ht hzero hbefore
  | kwCase => exact divides_caseStatement hrecurs hs ht hzero hbefore
  | kwLoop => exact divides_loopStatement hrecurs hs ht hzero hbefore
  | kwWhile => exact divides_whileStatement hrecurs hs ht hzero hbefore
  | kwRepeat => exact divides_repeatStatement hrecurs hs ht hzero hbefore
  | kwFor => exact divides_forStatement hrecurs hs ht hzero hbefore
  | kwExit => exact divides_exitStatement hs ht hzero hbefore
  | _ => exact hnone hs ht hzero hbefore

end Seam

end Modula
