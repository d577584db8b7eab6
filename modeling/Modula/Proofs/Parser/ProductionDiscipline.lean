import Modula.Proofs.Parser.Discipline

/-!
# Discipline in each production

The productions are gone through in the order of their definitions (`Discipline.body`, `Discipline.unit`). So a run of
a script that follows the discipline yields what it is said to, if the actions do what the abstraction says of them
(`Discipline.holds`).
-/

set_option autoImplicit false

namespace Modula.Discipline

open Script

variable {ctx : Context} (D : Discipline ctx) {t : Token}

/-! ## Expressions -/

/-- All expressions of a list are good. -/
theorem expressionList : Script.expressionList.Follows D t fun ns => ∀ n ∈ ns, D.good n :=
  D.enter (D.separated nofun (D.called nofun))

/-- Arguments are good, and so are parentheses without any. -/
theorem actualParameters (ht : t ≠ .dot) : (Script.actualParameters ctx).Follows D t D.good := by
  refine D.enter (D.skip ht (D.starts (fun _ => .bind D.expressionList fun ns hns => ?_) fun _ => .given ?_))
  · exact D.orEmpty nofun (D.list rfl hns)
  · exact D.orEmpty nofun (D.list rfl (by simp))

/-- A designator may be followed by any selectors: a field after its point, indices in brackets, or a caret. -/
theorem designator : (Script.designator ctx).Follows D t D.good := by
  refine D.enter (.bind D.qualident fun first hfirst => ?_)
  refine D.loop hfirst fun selected hselected => D.lookahead fun _ => ?_
  split
  · exact D.skip nofun (.bind (D.branch rfl (by simpa using hselected)) fun n hn => .yield hn)
  · refine D.selects fun ident hident => .bind (D.identNode hident) fun field hfield => ?_
    exact .bind (D.branch rfl (by simp [hselected, hfield])) fun n hn => .yield hn
  · refine D.skip nofun (.bind D.expressionList fun ns hns => D.expect nofun fun _ => .ite (fun _ => ?_) fun _ => ?_)
    · refine .bind (D.list rfl hns) fun indices hindices => ?_
      exact .bind (D.branch rfl (by simp [hselected, hindices])) fun n hn => .yield hn
    · exact .done D.good_empty
  · exact .done hselected

/-- An element of a set is an expression or a range of two. -/
theorem element : Script.element.Follows D t D.good := by
  refine D.enter (D.call nofun fun low hlow => D.nextIs (D.skip nofun (D.call nofun fun high hhigh => ?_)) fun _ => ?_)
  · exact D.branch rfl (by simp [hlow, hhigh])
  · exact .pure hlow

/-- A set without elements is as good as one with them. -/
theorem setValue (ht : t ≠ .dot) : (Script.setValue ctx).Follows D t D.good := by
  refine D.enter (D.skip ht (D.starts (fun _ => .bind (D.separated nofun D.element) fun ns hns => ?_) fun _ => .given ?_))
  · exact D.orEmpty nofun (D.list rfl hns)
  · exact D.orEmpty nofun (D.list rfl (by simp))

/-- After a designator there may be a set, or arguments, or neither. -/
theorem designatorOrFuncCall : (Script.designatorOrFuncCall ctx).Follows D t D.good := by
  refine D.enter (.bind D.designator fun head hhead => D.starts (fun hset => ?_) fun _ => D.starts (fun hcall => ?_) ?_)
  · refine .bind (D.setValue (Production.ne_dot_of_first hset nofun)) fun elements helements => ?_
    exact D.branch rfl (by simp [hhead, helements])
  · refine .bind (D.actualParameters (Production.ne_dot_of_first hcall nofun)) fun arguments harguments => ?_
    exact D.branch rfl (by simp [hhead, harguments])
  · exact fun _ => .pure hhead

/-- All tokens but those of four kinds are no literals. -/
theorem literal?_eq_none : literal? t = none ↔ t ≠ .string ∧ t ≠ .integer ∧ t ≠ .real ∧ t ≠ .char := by
  unfold literal?
  split <;> simp_all

/-- No literal is an identifier or a point. -/
theorem literal_ne {type : NodeType} (h : literal? t = some type) : type ∉ NodeType.identifying ∧ t ≠ .dot := by
  unfold literal? at h
  split at h <;> cases h <;> decide

/-- Each alternative of a factor is entered by its own token; a literal is built only if its token is offered. -/
theorem factor : (Script.factor ctx).Follows D t D.good := by
  refine D.enter (D.lookahead fun hoffered => ?_)
  split
  · next type htype =>
    obtain ⟨hident, hdot⟩ := literal_ne htype
    refine D.accept hdot fun lexeme _ _ v hv _ => ⟨fun n hn => ?_, fun n hn => ⟨hv, hn⟩⟩
    exact D.good_value (D.literal hoffered htype) (fun h => (hident h).elim) hn
  · next hliteral =>
    refine D.starts (fun hset => ?_) fun hset => D.starts (fun _ => D.designatorOrFuncCall) fun hname => ?_
    · refine .bind (D.setValue (Production.ne_dot_of_first hset nofun)) fun elements helements => ?_
      exact D.branch rfl (by simp [helements, D.good_empty])
    · refine D.nextIs (D.skip nofun (D.call nofun fun inner hinner => ?_)) fun hparen => D.noAlternative ?_
      · exact D.orEmpty nofun (.pure hinner)
      · obtain ⟨hstring, hinteger, hreal, hchar⟩ := literal?_eq_none.mp hliteral
        simp_all [Production.first]

/-- A term is a factor, or the negation of one. -/
theorem simpleTerm : (Script.simpleTerm ctx).Follows D t D.good := by
  refine D.enter (D.nextIs (D.skip nofun (.bind D.factor fun operand hoperand => ?_)) fun _ => D.factor)
  exact D.branch rfl (by simpa using hoperand)

/-- Operands with operators between them are good as deep as they nest to the left. -/
theorem leftAssociative {operator? : Token → Option NodeType} {operand : Script Node} {first : Node}
    (hoperator : ∀ t, ∀ type ∈ operator? t, type.isPlain = true ∧ t ≠ .dot) (hoperand : ∀ {u}, operand.Follows D u D.good)
    (hfirst : D.good first) : (Script.leftAssociative operator? operand first).Follows D t D.good := by
  refine D.loop hfirst fun left hleft => D.lookahead fun _ => ?_
  split
  · exact .done hleft
  · next type htype =>
    obtain ⟨hplain, hdot⟩ := hoperator _ type htype
    refine D.skip hdot (.bind hoperand fun right hright => ?_)
    exact .bind (D.branch hplain (by simp [hleft, hright])) fun n hn => .yield hn

/-- Factors are joined by the operators of multiplication. -/
theorem term : (Script.term ctx).Follows D t D.good := by
  refine D.enter (.bind D.simpleTerm fun _ hfirst => D.leftAssociative (fun t type htype => ?_) D.simpleTerm hfirst)
  unfold multiplying? at htype
  split at htype <;> cases htype <;> decide

/-- A sign may stand before a term. -/
theorem signedTerm : (Script.signedTerm ctx).Follows D t D.good := by
  refine D.lookahead fun _ => ?_
  split
  · exact D.skip nofun D.term
  · exact D.skip nofun (.bind D.term fun operand hoperand => D.branch rfl (by simpa using hoperand))
  · exact D.term

/-- Terms are joined by the operators of addition. -/
theorem simpleExpression : (Script.simpleExpression ctx).Follows D t D.good := by
  refine D.enter (.bind D.signedTerm fun _ hfirst => D.leftAssociative (fun t type htype => ?_) D.term hfirst)
  unfold adding? at htype
  split at htype <;> cases htype <;> decide

/-- Relations can be built in every context, and none of them is a point. -/
theorem relation_plain {type : NodeType} (h : relation? t = some type) : type.isPlain = true ∧ t ≠ .dot := by
  unfold relation? at h
  split at h <;> cases h <;> decide

/-- At most one relation joins two simple expressions. -/
theorem expression : (Script.expression ctx).Follows D t D.good := by
  refine D.enter (.bind D.simpleExpression fun left hleft => D.lookahead fun _ => ?_)
  split
  · exact .pure hleft
  · next type htype =>
    obtain ⟨hplain, hdot⟩ := relation_plain htype
    exact D.skip hdot (.bind D.simpleExpression fun right hright => D.branch hplain (by simp [hleft, hright]))

/-! ## Types -/

/-- The bounds of a subrange are there or not. -/
theorem range : (Script.range ctx).Follows D t fun bounds => ∀ b ∈ bounds, D.good b.1 ∧ D.good b.2 := by
  refine D.enter (D.expect nofun fun _ => .ite (fun _ => D.call nofun fun low hlow => ?_) fun _ => .pure nofun)
  refine D.expect nofun fun _ => .ite (fun _ => D.call nofun fun high hhigh => ?_) fun _ => .pure nofun
  refine D.expect nofun fun _ => .ite (fun _ => .pure ?_) fun _ => .pure nofun
  rintro _ ⟨rfl⟩
  exact ⟨hlow, hhigh⟩

/-- A range has two bounds, after the name of its base if it has one. -/
theorem subrange {base : Node} (hbase : D.good base) : (Script.subrange ctx base).Follows D t D.good := by
  refine .bind D.range fun bounds hbounds => ?_
  split
  · next low high =>
    obtain ⟨hlow, hhigh⟩ := hbounds _ rfl
    exact D.branch rfl (by simp [show D.good low from hlow, show D.good high from hhigh, hbase])
  · exact D.empty

/-- A name stands alone or before a range. -/
theorem namedOrSubrange : (Script.namedOrSubrange ctx).Follows D t D.good :=
  .bind D.qualident fun _ hbase => D.nextIs (D.subrange hbase) fun _ => .pure hbase

/-- A type is derived from a name, if it is not a range. -/
theorem derivedOrSubrangeType : (Script.derivedOrSubrangeType ctx).Follows D t D.good :=
  D.enter (D.nextIs D.namedOrSubrange fun _ => D.subrange D.good_empty)

/-- An enumeration may go on with the values of another one. -/
theorem enumType (ht : t ≠ .dot) : (Script.enumType ctx).Follows D t D.good :=
  D.enter (D.skip ht (.bind D.identList fun _ hvalues => D.orEmpty nofun (D.branch rfl (by simpa using hvalues))))

/-- A countable type is a range, an enumeration or a name. -/
theorem countableType : (Script.countableType ctx).Follows D t D.good := by
  refine D.enter (D.starts (fun _ => D.subrange D.good_empty) fun hrange => D.starts (fun henum => ?_) fun henum => ?_)
  · exact D.enumType (Production.ne_dot_of_first henum nofun)
  · refine D.starts (fun _ => D.namedOrSubrange) fun hname => D.noAlternative ?_
    simp_all [Production.first]

/-- A set type is good with its base. -/
theorem setType (ht : t ≠ .dot) : (Script.setType ctx).Follows D t D.good :=
  D.enter (D.skip ht (D.orEmpty nofun (.bind D.countableType fun _ hbase => D.branch rfl (by simpa using hbase))))

/-- An array type is good with its indices and the type of its components. -/
theorem arrayType (ht : t ≠ .dot) : (Script.arrayType ctx).Follows D t D.good := by
  refine D.enter (D.skip ht (.bind (D.separated nofun D.countableType) fun ns hns => D.orEmpty nofun ?_))
  refine .bind (D.list rfl hns) fun indices hindices => D.call nofun fun element helement => ?_
  exact D.branch rfl (by simp [hindices, helement])

/-- Fields of one type are good with their names and that type. -/
theorem fieldList : (Script.fieldList ctx).Follows D t D.good := by
  refine D.enter (D.starts (fun _ => .bind D.identList fun idents hidents => D.orEmpty nofun ?_) D.noAlternative)
  exact D.call nofun fun type htype => D.branch rfl (by simp [hidents, htype])

/-- Fields may end in a semicolon, or have none between semicolons, which is warned of. -/
theorem fieldLists {follow : TokenSet} {item : Script Node} (hitem : ∀ {u}, item.Follows D u D.good) :
    (Script.fieldLists follow item).Follows D t fun ns => ∀ n ∈ ns, D.good n :=
  D.lookahead fun _ => .ite (fun _ => D.warnNext rfl (.pure (by simp))) fun _ => D.semicolonSeparated rfl hitem

/-- The fields of a record are good. -/
theorem fieldListSequence : (Script.fieldListSequence ctx).Follows D t D.good :=
  D.enter (.bind (D.fieldLists D.fieldList) fun _ hns => D.list rfl hns)

/-- An extensible record is entered only where it may be built. -/
theorem extensibleRecordType (ht : t ≠ .dot) (hextensions : ∀ t ∈ NodeType.ofExtensions, D.allowed t) :
    (Script.extensibleRecordType ctx).Follows D t D.good := by
  refine D.enter (D.skip ht (D.nextIs (D.skip nofun (.bind D.qualident fun base hbase => D.orEmpty nofun ?_)) fun _ => ?_))
  · refine .bind D.fieldListSequence fun fields hfields => D.orEmpty nofun ?_
    exact D.branchOf (hextensions _ (by decide)) (by simp [hbase, hfields])
  · exact .bind D.fieldListSequence fun fields hfields => D.orEmpty nofun (D.branch rfl (by simpa using hfields))

/-- Variant fields are called by the rule that is entered where they may be built. -/
theorem variantFieldList (hvariants : ∀ t ∈ NodeType.ofVariants, D.allowed t) :
    (Script.variantFieldList ctx).Follows D t D.good := by
  refine D.enter (D.starts (fun _ => D.fieldList) fun hfields => D.starts (fun hcase => ?_) fun hcase => ?_)
  · exact D.called fun _ => ⟨by simpa [Production.first] using hcase, hvariants⟩
  · exact D.noAlternative (by simp_all [Production.first])

/-- So are all of the field lists with semicolons between them. -/
theorem variantFieldListSeq (hvariants : ∀ t ∈ NodeType.ofVariants, D.allowed t) :
    (Script.variantFieldListSeq ctx).Follows D t fun ns => ∀ n ∈ ns, D.good n :=
  D.enter (.bind (D.fieldLists (D.variantFieldList hvariants)) fun _ hns =>
    .pure fun n hn => hns n (List.mem_filter.mp hn).1)

/-- A variant record is entered only where it may be built. -/
theorem variantRecordType (ht : t ≠ .dot) (hvariants : ∀ t ∈ NodeType.ofVariants, D.allowed t) :
    (Script.variantRecordType ctx).Follows D t D.good := by
  refine D.enter (D.skip ht (.bind (D.variantFieldListSeq hvariants) fun ns hns => D.orEmpty nofun ?_))
  refine .ite (fun _ => ?_) fun _ => ?_
  · exact .bind (D.list rfl hns) fun fields hfields => D.branch rfl (by simpa using hfields)
  · refine .bind (D.listOf (hvariants _ (by decide)) hns) fun fields hfields => ?_
    exact D.branchOf (hvariants _ (by decide)) (by simpa using hfields)

/-- A case label is an expression or a range of two. -/
theorem caseLabels : Script.caseLabels.Follows D t D.good := by
  refine D.enter (D.call nofun fun low hlow => D.nextIs (D.skip nofun (D.call nofun fun high hhigh => ?_)) fun _ => ?_)
  · exact D.branch rfl (by simp [hlow, hhigh])
  · exact D.branch rfl (by simp [hlow, D.good_empty])

/-- Labels have commas between them. -/
theorem caseLabelList : Script.caseLabelList.Follows D t D.good :=
  D.enter (.bind (D.separated nofun D.caseLabels) fun _ hns => D.list rfl hns)

/-- A variant has labels and fields, if any. -/
theorem variant (hvariants : ∀ t ∈ NodeType.ofVariants, D.allowed t) :
    (Script.variant ctx).Follows D t D.good := by
  refine D.enter (.bind D.caseLabelList fun labels hlabels => D.orEmpty nofun ?_)
  refine .bind (D.variantFieldListSeq hvariants) fun ns hns => ?_
  refine .bind (D.listOf (hvariants _ (by decide)) hns) fun fields hfields => ?_
  exact D.branchOf (hvariants _ (by decide)) (by simp [hlabels, hfields])

/-- Variant fields may have a tag, and what they are decided by, and fields for all other cases. -/
theorem variantFields (ht : t ≠ .dot) (hvariants : ∀ t ∈ NodeType.ofVariants, D.allowed t) :
    (Script.variantFields ctx).Follows D t D.good := by
  refine D.enter (D.skip ht (D.test fun tagged htagged => ?_))
  extract_lets rest
  have hrest : ∀ tag : Node, D.good tag → ∀ {u}, (rest tag).Follows D u D.good := by
    refine fun tag htag {u} => D.orEmpty nofun (.bind D.qualident fun tagType htagType => D.orEmpty nofun ?_)
    refine .bind (D.barred (D.variant hvariants)) fun ns hns => D.test fun exhaustive hexhaustive => ?_
    extract_lets last
    have hlast : ∀ otherwise : Node, D.good otherwise → ∀ {u}, (last otherwise).Follows D u D.good := by
      intro otherwise hotherwise u
      refine D.orEmpty nofun (.bind (D.listOf (hvariants _ (by decide)) hns) fun cases hcases => ?_)
      exact D.branchOf (hvariants _ (by decide)) (by simp [htag, htagType, hcases, hotherwise])
    refine .ite (fun h => ?_) fun _ => .given (hlast _ D.good_empty)
    refine D.skip ((hexhaustive.mp h).trans_ne nofun) (.bind (D.variantFieldListSeq hvariants) fun ns hns => ?_)
    exact .bind (D.listOf (hvariants _ (by decide)) hns) hlast
  refine .ite (fun h => ?_) fun _ => .given (hrest _ D.good_empty)
  have hident := htagged.mp h
  exact D.accept (hident.trans_ne nofun) fun lexeme hlexeme => .bind (D.terminal (hlexeme hident)) hrest

/-- A pointer type is good with the type that it points to. -/
theorem pointerType (ht : t ≠ .dot) : (Script.pointerType ctx).Follows D t D.good :=
  D.enter (D.skip ht (D.orEmpty nofun (D.call nofun fun _ htarget => D.branch rfl (by simpa using htarget))))

/-- A formal type is a name, or an open array of one. -/
theorem simpleFormalType : (Script.simpleFormalType ctx).Follows D t D.good := by
  refine D.enter (D.nextIs (D.skip nofun (D.orEmpty nofun (.bind D.qualident fun element helement => ?_))) fun _ => ?_)
  · exact D.branch rfl (by simpa using helement)
  · exact D.qualident

/-- The attribute that is yielded may be built. -/
theorem passing (ht : (Production.attributedFormalType.first ctx).contains t = true) :
    Script.passing.Follows D t D.allowed := by
  refine D.test fun const hconst => D.skip (Production.ne_dot_of_first ht nofun) (.pure ?_)
  cases const with
  | true =>
    obtain rfl := hconst.mp rfl
    exact D.constParameter (Production.constParameters_of_first ht)
  | false => exact D.plain rfl

/-- An attribute is entered by its token, so one that is built is one of the context. -/
theorem attributedFormalType (ht : (Production.attributedFormalType.first ctx).contains t = true) :
    (Script.attributedFormalType ctx).Follows D t D.good := by
  refine D.enter (.bind (D.passing ht) fun passing hpassing => .bind D.simpleFormalType fun type htype => ?_)
  exact D.branchOf hpassing (by simpa using htype)

/-- A formal type has an attribute or none. -/
theorem formalType : (Script.formalType ctx).Follows D t D.good := by
  refine D.enter (D.starts (fun _ => D.simpleFormalType) fun hplain => D.starts D.attributedFormalType fun hpassing => ?_)
  refine D.noAlternative ?_
  cases hctx : ctx.constParameters <;> simp_all [Production.first]

/-- The type of a result follows its colon. -/
theorem resultType : (Script.resultType ctx).Follows D t D.good :=
  D.nextIs (D.skip nofun D.qualident) fun _ => D.empty

/-- A procedure type has formal types in parentheses, and a result, or neither. -/
theorem procedureType (ht : t ≠ .dot) : (Script.procedureType ctx).Follows D t D.good := by
  refine D.enter (D.skip ht (D.test fun listed hlisted => ?_))
  extract_lets rest close
  have hrest : ∀ ns : List Node, (∀ n ∈ ns, D.good n) → ∀ {u}, (rest ns).Follows D u D.good := by
    refine fun ns hns _ => .bind D.resultType fun result hresult => .bind (D.list rfl hns) fun formals hformals => ?_
    exact D.branch rfl (by simp [hformals, hresult])
  have hclose : ∀ ns : List Node, (∀ n ∈ ns, D.good n) → ∀ {u}, (close ns).Follows D u D.good := by
    refine fun ns hns _ => D.expect nofun fun _ => .ite (fun _ => .given (hrest ns hns)) fun _ => ?_
    exact D.nextIs (.given (hrest ns hns)) fun _ => D.empty
  refine .ite (fun h => ?_) fun _ => .given (hrest [] (by simp))
  refine D.skip ((hlisted.mp h).trans_ne nofun) (D.testStarts fun any _ => .ite (fun _ => ?_) fun _ => ?_)
  · exact .bind (D.separated nofun D.formalType) hclose
  · exact .given (hclose [] (by simp))

/-- Each type is entered by its own token; records are built as the context has them. -/
theorem typeExpression : (Script.typeExpression ctx).Follows D t D.good := by
  refine D.enter (D.starts (fun _ => D.derivedOrSubrangeType) fun hderived => ?_)
  refine D.starts (fun henum => D.enumType (Production.ne_dot_of_first henum nofun)) fun henum => ?_
  refine D.starts (fun hset => D.setType (Production.ne_dot_of_first hset nofun)) fun hset => ?_
  refine D.starts (fun harray => D.arrayType (Production.ne_dot_of_first harray nofun)) fun harray => ?_
  refine D.nextIs (.ite (fun hctx => ?_) fun hctx => ?_) fun hrecord => ?_
  · exact D.variantRecordType nofun (D.variants hctx)
  · exact D.extensibleRecordType nofun (D.extensions (by simpa using hctx))
  refine D.starts (fun hpointer => D.pointerType (Production.ne_dot_of_first hpointer nofun)) fun hpointer => ?_
  refine D.starts (fun hproc => D.procedureType (Production.ne_dot_of_first hproc nofun)) fun hproc => ?_
  exact D.noAlternative (by simp_all [Production.first])

/-- Formal parameters are built with their attribute, if that is allowed. -/
theorem simpleFormalParams {passing : Option NodeType} (hpassing : ∀ type ∈ passing, D.allowed type) :
    (Script.simpleFormalParams ctx passing).Follows D t D.good := by
  refine D.enter (.bind D.identList fun idents hidents => D.orEmpty nofun ?_)
  refine .bind D.simpleFormalType fun type htype => ?_
  split
  · next passing =>
    refine .bind (D.branchOf (hpassing passing rfl) (by simpa using htype)) fun attributed hattributed => ?_
    exact D.branch rfl (by simp [hidents, hattributed])
  · exact D.branch rfl (by simp [hidents, htype])

/-- The attribute of formal parameters is entered by its token. -/
theorem formalParams : (Script.formalParams ctx).Follows D t D.good := by
  refine D.enter (D.starts (fun _ => D.simpleFormalParams nofun) fun hplain => D.starts (fun hpassing => ?_) ?_)
  · refine D.enter (.bind (D.passing hpassing) fun passing hallowed => ?_)
    exact D.simpleFormalParams (by simpa using hallowed)
  · intro hpassing
    refine D.noAlternative ?_
    cases hctx : ctx.constParameters <;> simp_all [Production.first]

/-- Formal parameters have semicolons between them. -/
theorem formalParamList : (Script.formalParamList ctx).Follows D t D.good :=
  D.enter (.bind (D.semicolonSeparated rfl D.formalParams) fun _ hns => D.list rfl hns)

/-- A procedure has formal parameters in parentheses and a result, or neither. -/
theorem procedureSignature : (Script.procedureSignature ctx).Follows D t D.good := by
  refine D.enter (D.expectIdent fun ident hident => ?_)
  split
  · refine .bind (D.terminal (hident _ rfl)) fun name hname => D.nextIs (D.skip nofun (D.testStarts fun any _ => ?_)) ?_
    · extract_lets close
      have hclose : ∀ params : Node, D.good params → ∀ {u}, (close params).Follows D u D.good := by
        refine fun params hparams _ => D.orEmpty nofun (.bind D.resultType fun result hresult => ?_)
        exact D.branch rfl (by simp [hname, hparams, hresult])
      exact .ite (fun _ => .bind D.formalParamList hclose) fun _ => .given (hclose _ D.good_empty)
    · exact fun _ => D.branch rfl (by simp [hname, D.good_empty])
  · exact D.empty

/-- A heading is entered by its word. -/
theorem procedureHeader (ht : t ≠ .dot) : (Script.procedureHeader ctx).Follows D t D.good :=
  D.enter (D.skip ht D.procedureSignature)

/-! ## Statements -/

/-- What comes after a designator tells whether it is assigned to or called. -/
theorem assignmentOrProcCall : (Script.assignmentOrProcCall ctx).Follows D t D.good := by
  refine D.enter (.bind D.designator fun target htarget => D.nextIs ?_ fun _ => D.starts (fun hcall => ?_) fun _ => ?_)
  · refine D.skip nofun (D.call nofun fun value hvalue => ?_)
    exact D.branch rfl (by simp [htarget, hvalue])
  · refine .bind (D.actualParameters (Production.ne_dot_of_first hcall nofun)) fun arguments harguments => ?_
    exact D.branch rfl (by simp [htarget, harguments])
  · exact .given (D.branch rfl (by simp [htarget, D.good_empty]))

/-- What is returned is an expression, if one starts here. -/
theorem returnStatement (ht : t ≠ .dot) : (Script.returnStatement ctx).Follows D t D.good := by
  refine D.enter (D.skip ht (D.starts (fun _ => D.call nofun fun value hvalue => ?_) fun _ => .given ?_))
  · exact D.branch rfl (by simpa using hvalue)
  · exact D.branch rfl (by simpa using D.good_empty)

/-- A designator is opened by its word for the statements in it. -/
theorem withStatement (ht : t ≠ .dot) : (Script.withStatement ctx).Follows D t D.good := by
  refine D.enter (D.skip ht (.bind D.designator fun record hrecord => D.orEmpty nofun ?_))
  exact D.call nofun fun body hbody => D.orEmpty nofun (D.branch rfl (by simp [hrecord, hbody]))

/-- Statements for all other cases are called by their rule. -/
theorem elsePart : Script.elsePart.Follows D t D.good := D.nextIs (D.skip nofun (D.called nofun)) fun _ => D.empty

/-- Each further condition is entered by its word. -/
theorem elsifs {follow : TokenSet} : (Script.elsifs follow).Follows D t fun o => ∀ ns ∈ o, ∀ n ∈ ns, D.good n := by
  refine .bind (D.loop (P := fun o => ∀ ns ∈ o, ∀ n ∈ ns, D.good n) (by simp) fun o ho => ?_) fun o ho => .pure ?_
  · refine D.nextIs (D.skip nofun (D.call nofun fun condition hcondition => ?_)) fun _ => .done ho
    refine D.expect nofun fun _ => .ite (fun _ => D.call nofun fun body hbody => ?_) fun _ => .done nofun
    refine .bind (D.branch rfl (by simp [hcondition, hbody])) fun n hn => .yield ?_
    cases o with
    | none => nofun
    | some ns => simpa using ⟨hn, ho ns rfl⟩
  · cases o with
    | none => nofun
    | some ns => simpa using ho ns rfl

/-- The parts of a conditional statement are missing together if a word between them is. -/
theorem ifStatement (ht : t ≠ .dot) : (Script.ifStatement ctx).Follows D t D.good := by
  refine D.enter (D.skip ht (D.call nofun fun condition hcondition => D.orEmpty nofun ?_))
  refine D.call nofun fun body hbody => .bind D.elsifs fun o ho => ?_
  split
  · next ns =>
    refine .bind D.elsePart fun otherwise hotherwise => D.orEmpty nofun ?_
    refine .bind (D.list rfl (ho ns rfl)) fun alternatives halternatives => ?_
    exact D.branch rfl (by simp [hcondition, hbody, halternatives, hotherwise])
  · exact D.empty

/-- Labels and their statements are good on either side of the colon. -/
theorem caseBranch : (Script.caseBranch ctx).Follows D t D.good := by
  refine D.enter (.bind D.caseLabelList fun labels hlabels => D.orEmpty nofun (D.call nofun fun body hbody => ?_))
  exact D.branch rfl (by simp [hlabels, hbody])

/-- Cases have bars between them, and any of them may be missing. -/
theorem caseStatement (ht : t ≠ .dot) : (Script.caseStatement ctx).Follows D t D.good := by
  refine D.enter (D.skip ht (D.call nofun fun selector hselector => D.orEmpty nofun ?_))
  refine .bind (D.barred D.caseBranch) fun ns hns => .bind D.elsePart fun otherwise hotherwise => ?_
  refine D.orEmpty nofun (.bind (D.list rfl hns) fun cases hcases => ?_)
  exact D.branch rfl (by simp [hselector, hcases, hotherwise])

/-- A loop is good with its statements. -/
theorem loopStatement (ht : t ≠ .dot) : (Script.loopStatement ctx).Follows D t D.good :=
  D.enter (D.skip ht (D.call nofun fun _ hbody => D.orEmpty nofun (D.branch rfl (by simpa using hbody))))

/-- The condition comes before the statements. -/
theorem whileStatement (ht : t ≠ .dot) : (Script.whileStatement ctx).Follows D t D.good := by
  refine D.enter (D.skip ht (D.call nofun fun condition hcondition => D.orEmpty nofun ?_))
  exact D.call nofun fun body hbody => D.orEmpty nofun (D.branch rfl (by simp [hcondition, hbody]))

/-- The condition comes after the statements. -/
theorem repeatStatement (ht : t ≠ .dot) : (Script.repeatStatement ctx).Follows D t D.good := by
  refine D.enter (D.skip ht (D.call nofun fun body hbody => D.orEmpty nofun ?_))
  exact D.call nofun fun condition hcondition => D.branch rfl (by simp [hbody, hcondition])

/-- A loop over a range is good with its variable, bounds, step and statements. -/
theorem forStatement (ht : t ≠ .dot) : (Script.forStatement ctx).Follows D t D.good := by
  refine D.enter (D.skip ht (D.expectIdent fun control hcontrol => ?_))
  split
  · refine D.orEmpty nofun (D.call nofun fun first hfirst => D.orEmpty nofun ?_)
    refine D.call nofun fun last hlast => D.test fun stepped hstepped => ?_
    extract_lets rest
    have hrest : ∀ step : Node, D.good step → ∀ {u}, (rest step).Follows D u D.good := by
      refine fun step hstep _ => D.orEmpty nofun (D.call nofun fun body hbody => D.orEmpty nofun ?_)
      refine .bind (D.terminal (hcontrol _ rfl)) fun control hcontrol => ?_
      exact D.branch rfl (by simp [hcontrol, hfirst, hlast, hstep, hbody])
    refine .ite (fun h => ?_) fun _ => .given (hrest _ D.good_empty)
    exact D.skip ((hstepped.mp h).trans_ne nofun) (D.call nofun hrest)
  · exact D.empty

/-- Each statement is entered by its own token. -/
theorem statement : (Script.statement ctx).Follows D t D.good := by
  refine D.enter (D.lookahead fun _ => ?_)
  split
  · exact D.assignmentOrProcCall
  · exact D.returnStatement nofun
  · exact D.withStatement nofun
  · exact D.ifStatement nofun
  · exact D.caseStatement nofun
  · exact D.loopStatement nofun
  · exact D.whileStatement nofun
  · exact D.repeatStatement nofun
  · exact D.forStatement nofun
  · exact D.skip nofun (D.branch rfl (by simp))
  · exact D.noAlternative (by simp_all [Production.first])

/-- Statements have semicolons between them, and one too many is warned of. -/
theorem statementSequence : (Script.statementSequence ctx).Follows D t D.good := by
  refine D.enter (D.lookahead fun _ => .ite (fun _ => D.warnNext rfl D.empty) fun _ => ?_)
  refine .bind D.statement fun first hfirst => ?_
  refine .bind (D.loop (P := fun ns => ∀ n ∈ ns, D.good n) (by simpa using hfirst) fun ns hns {u} => ?_) fun ns hns => ?_
  · have hmore : ∀ {u}, (Script.statement ctx >>= fun n => (Pure.pure (.yield (n :: ns)) : Script _)).Follows D u
        (RoundOf fun ns => ∀ n ∈ ns, D.good n) :=
      .bind D.statement fun n hn => .yield (by simpa using ⟨hn, hns⟩)
    refine D.lookahead fun _ => .ite (fun hsemicolon => ?_) fun hsemicolon => .ite (fun _ => ?_) fun _ => .done hns
    · subst hsemicolon
      exact D.errant rfl (.done hns) fun _ => hmore
    · exact D.reject (by simp) (by simpa using hsemicolon) fun _ => hmore
  · exact D.list rfl (by simpa using hns)

/-! ## Declarations -/

/-- A section of declarations is entered by its word. -/
theorem itemSection {p : Production} {item : Script Node} {follow : TokenSet} (ht : t ≠ .dot)
    (hitem : ∀ {u}, item.Follows D u D.good) :
    (Script.itemSection ctx p item follow).Follows D t fun ns => ∀ n ∈ ns, D.good n :=
  D.skip ht (D.whileStarts fun _ => .bind hitem fun _ hn => D.expect nofun fun _ => .pure hn)

/-- A single declaration ends in its semicolon. -/
theorem closed {item : Script Node} {follow : TokenSet} (hitem : item.Follows D t D.good) :
    (Script.closed item follow).Follows D t fun ns => ∀ n ∈ ns, D.good n :=
  .bind hitem fun _ hn => D.expect nofun fun _ => .pure (by simpa using hn)

/-- A constant is good with its name and value. -/
theorem constDefinition : (Script.constDefinition ctx).Follows D t D.good := by
  refine D.enter (D.expectIdent fun ident hident => ?_)
  split
  · refine D.orEmpty nofun (.bind (D.terminal (hident _ rfl)) fun name hname => D.call nofun fun value hvalue => ?_)
    exact D.branch rfl (by simp [hname, hvalue])
  · exact D.empty

/-- A type may be defined by its name alone. -/
theorem typeDefinition : (Script.typeDefinition ctx).Follows D t D.good := by
  refine D.enter (D.expectIdent fun ident hident => ?_)
  split
  · refine .bind (D.terminal (hident _ rfl)) fun name hname => ?_
    refine D.nextIs (D.skip nofun (D.call nofun fun type htype => ?_)) fun _ => .given ?_
    · exact D.branch rfl (by simp [hname, htype])
    · exact D.branch rfl (by simp [hname, D.good_empty])
  · exact D.empty

/-- Variables of one type are good with their names and that type. -/
theorem variableDeclaration : (Script.variableDeclaration ctx).Follows D t D.good := by
  refine D.enter (.bind D.identList fun idents hidents => D.orEmpty nofun (D.call nofun fun type htype => ?_))
  exact D.branch rfl (by simp [hidents, htype])

/-- Each section of definitions is entered by its word. -/
theorem definition : (Script.definition ctx).Follows D t fun ns => ∀ n ∈ ns, D.good n := by
  refine D.enter (D.lookahead fun _ => ?_)
  split
  · exact D.itemSection nofun D.constDefinition
  · exact D.itemSection nofun D.typeDefinition
  · exact D.itemSection nofun D.variableDeclaration
  · exact D.closed (D.procedureHeader nofun)
  · exact .bind (D.noAlternative (by simp_all [Production.first])) fun n hn => .pure (by simpa using hn)

/-- A record of variable size is entered only where records can be extended. -/
theorem varSizeRecordType (ht : t ≠ .dot) (hextensions : ∀ t ∈ NodeType.ofExtensions, D.allowed t) :
    (Script.varSizeRecordType ctx).Follows D t D.good := by
  refine D.enter (D.skip ht (D.orEmpty nofun (.bind D.fieldListSequence fun fields hfields => D.orEmpty nofun ?_)))
  refine D.expectIdent fun last hlast => ?_
  split
  · refine D.orEmpty nofun (D.orEmpty nofun (D.expectIdent fun size hsize => ?_))
    split
    · refine D.orEmpty nofun (.bind D.qualident fun element helement => D.orEmpty nofun ?_)
      refine .bind (D.terminal (hlast _ rfl)) fun last hlast => .bind (D.terminal (hsize _ rfl)) fun size hsize => ?_
      refine .bind (D.branchOf (hextensions _ (by decide)) (by simp [hlast, hsize, helement])) fun last hlast => ?_
      exact D.branchOf (hextensions _ (by decide)) (by simp [hfields, hlast])
    · exact D.empty
  · exact D.empty

/-- What only a declared type can be is what starts like no other type, if the context has it. -/
theorem typeDeclarationTail : (Script.typeDeclarationTail ctx).Follows D t D.good := by
  refine D.enter (D.starts (fun _ => D.called nofun) fun htype => D.starts (fun htail => ?_) D.noAlternative)
  have hextensions := D.extensions (Production.variantRecords_of_first htype htail)
  exact D.varSizeRecordType (Production.ne_dot_of_first htail nofun) hextensions

/-- A declared type is good with its name. -/
theorem typeDeclaration : (Script.typeDeclaration ctx).Follows D t D.good := by
  refine D.enter (D.expectIdent fun ident hident => ?_)
  split
  · refine D.orEmpty nofun (.bind (D.terminal (hident _ rfl)) fun name hname => ?_)
    refine .bind D.typeDeclarationTail fun tail htail => ?_
    exact D.branch rfl (by simp [hname, htail])
  · exact D.empty

/-- After its heading a procedure has a block and its own name again, which is compared as soon as it has been accepted.
-/
theorem procedureDeclaration (ht : t ≠ .dot) : (Script.procedureDeclaration ctx).Follows D t D.good := by
  refine D.enter (.bind (D.procedureHeader ht) fun header hheader => D.expect nofun fun found => ?_)
  extract_lets rest
  have hrest : ∀ {u}, (rest ()).Follows D u D.good :=
    D.call nofun fun body hbody => D.closing fun closing => D.branch rfl (by simp [hheader, hbody])
  intro u
  split
  · exact hrest
  · exact D.starts (fun _ => hrest) fun _ => D.empty

/-- Modules are imported by their names. -/
theorem qualifiedImport (ht : t ≠ .dot) : (Script.qualifiedImport ctx).Follows D t D.good :=
  D.enter (D.skip ht (.bind D.identList fun _ hidents => D.orEmpty nofun (D.branch rfl (by simpa using hidents))))

/-- Names are imported from a module. -/
theorem unqualifiedImport (ht : t ≠ .dot) : (Script.unqualifiedImport ctx).Follows D t D.good := by
  refine D.enter (D.skip ht (D.expectIdent fun source hsource => ?_))
  split
  · refine D.orEmpty nofun (.bind D.identList fun idents hidents => D.orEmpty nofun ?_)
    refine .bind (D.terminal (hsource _ rfl)) fun source hsource => ?_
    exact D.branch rfl (by simp [hsource, hidents])
  · exact D.empty

/-- The first word tells which import it is. -/
theorem importClause : (Script.importClause ctx).Follows D t D.good := by
  refine D.enter (D.starts (fun himport => D.qualifiedImport (Production.ne_dot_of_first himport nofun)) fun himport => ?_)
  refine D.starts (fun hfrom => D.unqualifiedImport (Production.ne_dot_of_first hfrom nofun)) fun hfrom => ?_
  exact D.noAlternative (by simp_all [Production.first])

/-- Imports follow each other as long as one starts here. -/
theorem imports : (Script.imports ctx).Follows D t D.good :=
  .bind (D.whileStarts fun _ => D.importClause) fun _ hns => D.list rfl hns

/-- A priority is an expression in brackets. -/
theorem modulePriority (ht : t ≠ .dot) : (Script.modulePriority ctx).Follows D t D.good :=
  D.enter (D.skip ht (D.call nofun fun _ hpriority => D.orEmpty nofun (.pure hpriority)))

/-- A module may have no priority. -/
theorem optionalPriority : (Script.optionalPriority ctx).Follows D t D.good :=
  D.starts (fun hpriority => D.modulePriority (Production.ne_dot_of_first hpriority nofun)) fun _ => D.empty

/-- A semicolon that is missing at the end of a heading is passed over. -/
theorem endHeading {body : TokenSet} : (Script.endHeading body).Follows D t fun _ => True := by
  refine D.nextIs (D.skipped nofun) fun ht => D.reject (by simp) (by simpa using ht) fun hlax => ?_
  exact fun v _ _ => D.ensures_skipTo fun w => ⟨D.calm_of_lax hlax w, trivial⟩

/-- An export may be qualified. -/
theorem exportClause (ht : t ≠ .dot) : (Script.exportClause ctx).Follows D t D.good := by
  refine D.enter (D.skip ht (D.test fun qualified hqualified => ?_))
  extract_lets rest
  have hrest : ∀ type : NodeType, type.isPlain = true → ∀ {u}, (rest type).Follows D u D.good := fun type htype =>
    .bind D.identList fun idents hidents => D.orEmpty nofun (D.branch htype (by simpa using hidents))
  refine .ite (fun h => ?_) fun _ => .given (hrest _ rfl)
  exact D.skip ((hqualified.mp h).trans_ne nofun) (.given (hrest _ rfl))

/-- A local module may import and export; its own name comes again at its end. -/
theorem moduleDeclaration (ht : t ≠ .dot) : (Script.moduleDeclaration ctx).Follows D t D.good := by
  refine D.enter (D.skip ht (D.expectIdent fun ident hident => .bind D.optionalPriority fun priority hpriority => ?_))
  refine .bind D.endHeading fun _ _ => .bind D.imports fun imports himports => D.testStarts fun exports hexports => ?_
  extract_lets rest
  have hrest : ∀ exported : Node, D.good exported → ∀ {u}, (rest exported).Follows D u D.good := by
    refine fun exported hexported _ => D.call nofun fun block hblock => D.closing fun closing => ?_
    refine .bind (D.identNode hident) fun name hname => ?_
    exact D.branch rfl (by simp [hname, hpriority, himports, hexported, hblock])
  refine .ite (fun h => .bind (D.exportClause ?_) hrest) fun _ => .given (hrest _ D.good_empty)
  exact Production.ne_dot_of_first (hexports.mp h) nofun

/-- Each section of declarations is entered by its word. -/
theorem declaration : (Script.declaration ctx).Follows D t fun ns => ∀ n ∈ ns, D.good n := by
  refine D.enter (D.lookahead fun _ => ?_)
  split
  · exact D.itemSection nofun D.constDefinition
  · exact D.itemSection nofun D.typeDeclaration
  · exact D.itemSection nofun D.variableDeclaration
  · exact D.closed (D.procedureDeclaration nofun)
  · exact D.closed (D.moduleDeclaration nofun)
  · exact .bind (D.noAlternative (by simp_all [Production.first])) fun n hn => .pure (by simpa using hn)

/-- A block may have statements after its declarations, or none. -/
theorem block : (Script.block ctx).Follows D t D.good := by
  refine D.enter (.bind (D.whileStarts fun _ => D.declaration) fun groups hgroups => D.test fun begins hbegins => ?_)
  extract_lets rest
  have hrest : ∀ statements : Node, D.good statements → ∀ {u}, (rest statements).Follows D u D.good := by
    refine fun statements hstatements _ => D.expect nofun fun _ => ?_
    refine .bind (D.list rfl (List.forall_mem_flatten.mpr hgroups)) fun declarations hdeclarations => ?_
    exact D.branch rfl (by simp [hdeclarations, hstatements])
  refine .ite (fun h => ?_) fun _ => .given (hrest _ D.good_empty)
  exact D.skip ((hbegins.mp h).trans_ne nofun) (D.call nofun hrest)

/-- Every rule follows the discipline, that of variant fields where it may be called. -/
theorem body (rule : Rule) (hrule : D.Calls rule t) : (rule.body ctx).Follows D t D.good := by
  cases rule with
  | expression => exact D.expression
  | typeExpression => exact D.typeExpression
  | variantFields =>
    obtain ⟨hcase, hvariants⟩ := hrule rfl
    exact D.variantFields (hcase.trans_ne nofun) hvariants
  | statementSequence => exact D.statementSequence
  | block => exact D.block

/-! ## Modules

The point at the end of a module is the last symbol accepted, and nothing follows it but nodes that are built.
-/

/-- At the end of a module the point is demanded. -/
theorem point {β : Type} {P : β → Prop} {resume : TokenSet} {next : Bool → Script β}
    (h : ∀ b v, (next b).Ensures D.care v fun c _ => P c) :
    (Script.expect .dot resume >>= next).Obeys D t fun c _ => P c :=
  fun _ _ _ => ensures_bind.mpr (ensures_bind.mpr (D.ensures_demand (fun _ _ _ => h _ _) fun _ _ => h _ _))

/-- A definition module is followed from its heading to its point. -/
theorem definitionModule : (Script.definitionModule ctx).Obeys D t fun n _ => D.good n := by
  refine D.enter (D.expect nofun fun _ => D.expect nofun fun _ => D.expectIdent fun ident hident => ?_)
  refine .bind D.endHeading fun _ _ => .bind D.imports fun imports himports => ?_
  refine .bind (D.whileStarts fun _ => D.definition) fun groups hgroups => ?_
  refine D.expect nofun fun ended => D.test fun named _ => ?_
  extract_lets rest
  have hrest : ∀ v, (rest ()).Ensures D.care v fun n _ => D.good n := by
    refine fun v => ensures_bind.mpr ((D.builds_identNode hident v).mono fun name _ hname => ?_)
    have hdefinitions := D.builds_list (D.plain rfl : D.allowed .definitionList) (List.forall_mem_flatten.mpr hgroups)
    refine ensures_bind.mpr ((hdefinitions _).mono fun definitions _ hdefinitions => ?_)
    refine (D.builds_branch (D.plain rfl) ?_ _).mono fun n _ hn => hn.2
    simp [hname.2, himports, hdefinitions.2]
  exact .ite (fun _ => D.closing fun closing => D.point fun _ => hrest) fun _ v _ _ => hrest v

/-- So is a program module, and an implementation module after its first word. -/
theorem programModule {type : NodeType} (htype : type.isPlain = true) :
    (Script.programModule ctx type).Obeys D t fun n _ => D.good n := by
  refine D.enter (D.expect nofun fun _ => D.expectIdent fun ident hident => ?_)
  refine .bind D.optionalPriority fun priority hpriority => .bind D.endHeading fun _ _ => ?_
  refine .bind D.imports fun imports himports => D.call nofun fun block hblock => D.closing fun closing => ?_
  extract_lets rest
  have hrest : ∀ v, (rest ()).Ensures D.care v fun n _ => D.good n := by
    refine fun v => ensures_bind.mpr ((D.builds_identNode hident v).mono fun name _ hname => ?_)
    refine (D.builds_branch (D.plain htype) ?_ _).mono fun n _ hn => hn.2
    simp [hname.2, hpriority, himports, hblock]
  intro u
  exact .ite (fun _ => D.point fun _ => hrest) fun _ v _ _ => hrest v

/-- Nothing is asked of what comes after the end. -/
theorem ensures_expectEnd {v : AtHand} {Q : Unit → AtHand → Prop} (h : ∀ w, Q () w) :
    Script.expectEnd.Ensures D.care v Q := by
  refine ⟨trivial, ?_⟩
  rintro t ⟨rfl, -⟩
  refine ensures_ite.mpr ⟨fun _ => h v, fun ht => ⟨⟨by simp, fun hmem => ht ?_⟩, fun _ _ => h _⟩⟩
  exact decide_eq_true (List.mem_singleton.mp hmem)

/-- A unit of either kind obeys every discipline from its first symbol on. -/
theorem unit (kind : UnitKind) : (Script.unit ctx kind).Obeys D t fun n _ => D.good n := by
  have hend : ∀ {module : Script Node} {u}, (module.Obeys D u fun n _ => D.good n) →
      (module >>= fun n => Script.expectEnd >>= fun _ => Pure.pure n).Obeys D u fun n _ => D.good n :=
    fun hmodule v hv ht => ensures_bind.mpr ((hmodule v hv ht).mono fun n _ hn => D.ensures_expectEnd fun _ => hn)
  cases kind with
  | definition => exact hend D.definitionModule
  | implementation =>
    unfold Script.unit implementationUnit
    extract_lets implementation program headings finish rest
    have hrest : ∀ {u}, (rest ()).Obeys D u fun n _ => D.good n := by
      refine D.lookahead fun _ => .ite (fun h => ?_) fun _ => .ite (fun _ => ?_) fun _ => ?_
      · exact hend (D.enter (D.skip (Production.ne_dot_of_first h nofun) (D.programModule rfl)))
      · exact hend (D.programModule rfl)
      · exact fun v _ _ => D.ensures_expectEnd fun _ => D.good_empty
    refine D.lookahead fun _ => .ite (fun _ => hrest) fun h => D.reject ?_ ?_ fun hlax => D.skipTo hlax hrest
    · have hmodule : .kwModule ∈ headings.toList := by simp [headings, program, TokenSet.mem_toList, Production.first]
      rw [Expected.tokens_ofSet]
      exact List.ne_nil_of_mem hmodule
    · simpa [TokenSet.mem_toList] using h

end Modula.Discipline
