import Modula.Proofs.Tree.Typing

/-!
# The types that productions yield
-/

set_option autoImplicit false

namespace Modula.Script

variable {ctx : Context} {Q : Node → Prop}

/-! ## Expressions -/

/-- A designator is an expression. -/
theorem mem_expressions_of_designator {t : NodeType} (h : t ∈ NodeType.designators) : t ∈ NodeType.expressions := by
  have hall : ∀ u ∈ NodeType.designators, u ∈ NodeType.expressions := by decide
  exact hall t h

/-- A list of expressions has at least one. -/
theorem yields_expressionList {Q : List Node → Prop}
    (hQ : ∀ ns : List Node, ns ≠ [] → (∀ n ∈ ns, n.type ∈ NodeType.expressions) → Q ns) : expressionList.Yields Q :=
  .enter (yields_separated (fun _ hn => hn) hQ)

/-- Expressions can be passed as arguments; there is no node if there are none. -/
theorem yields_arguments {ns : List Node} (h : ∀ n ∈ ns, n.type ∈ NodeType.expressions)
    (hQ : ∀ n : Node, n.type = .empty ∨ n.type = .arguments → Q n) : (list .arguments ns).Yields Q :=
  yields_list rfl (fun n hn => .inr (h n hn)) hQ

/-- Parentheses yield arguments, or an empty node if there are none. -/
theorem yields_actualParameters (hQ : ∀ n : Node, n.type = .empty ∨ n.type = .arguments → Q n) :
    (actualParameters ctx).Yields Q := by
  refine .enter (.skip (.starts ?_ ?_))
  · exact .bind (yields_expressionList fun ns _ hns => .expect (yields_arguments hns hQ))
  · exact .expect (yields_arguments (by simp) hQ)

/-- Whatever is selected of a designator, another designator comes of it. -/
theorem yields_designator (hQ : ∀ n : Node, n.type ∈ NodeType.designators → Q n) : (designator ctx).Yields Q := by
  refine .enter (.bind (yields_qualident fun first hfirst => ?_))
  refine yields_loop (fun n => n.type ∈ NodeType.designators) ?_ fun selected hselected => .lookahead fun t => ?_
  · have hall : ∀ t ∈ NodeType.typeNames, t ∈ NodeType.designators := by decide
    exact hall _ hfirst
  split
  · exact .skip (.bind (yields_branch rfl (by simp [hselected]) fun n hn => by simp [hn, NodeType.designators]))
  · refine .skip (.expectIdent fun ident => .bind (yields_terminal rfl fun field hfield => .bind ?_))
    exact yields_branch rfl (by simp [hselected, hfield]) fun n hn => by simp [hn, NodeType.designators]
  · refine .skip (.bind (yields_expressionList fun indices hne hindices => .expect (.bind ?_)))
    refine yields_nonemptyList rfl (by decide) hne hindices fun indices hindices => .bind ?_
    exact yields_branch rfl (by simp [hselected, hindices]) fun n hn => by simp [hn, NodeType.designators]
  · exact hQ selected hselected

/-- An element of a set is an expression or a range. -/
theorem yields_element (hQ : ∀ n : Node, n.type ∈ NodeType.expressions ++ [.range] → Q n) : element.Yields Q := by
  refine .enter (.expression fun low hlow => .nextIs (.skip (.expression fun high hhigh => ?_)) ?_)
  · exact yields_branch rfl (by simp [hlow, hhigh]) fun n hn => hQ n (by simp [hn])
  · exact hQ low (List.mem_append_left _ hlow)

/-- Braces yield elements, or an empty node if there are none. -/
theorem yields_setValue (hQ : ∀ n : Node, n.type = .empty ∨ n.type = .elementList → Q n) : (setValue ctx).Yields Q := by
  refine .enter (.skip (.starts ?_ ?_))
  · refine .bind (yields_separated (yields_element fun _ hn => hn) fun ns _ hns => .expect ?_)
    exact yields_list rfl (fun n hn => .inr (hns n hn)) hQ
  · exact .expect (yields_list rfl (by simp) hQ)

/-- If the type of a set value is a designator with selectors, the set value cannot be built. -/
theorem yields_typedSetValue {elements head : Node} (helements : elements.type = .empty ∨ elements.type = .elementList)
    (hhead : head.type ∈ NodeType.designators) (hQ : ∀ n : Node, n.type = .setValue → Q n) :
    (branch .setValue [elements, head]).Yields Q := by
  by_cases hname : head.type ∈ NodeType.typeNames
  · exact yields_branch rfl (by simp [helements, hname]) hQ
  · have hselected : head.type ∈ NodeType.selected := by
      have hall : ∀ t ∈ NodeType.designators, t ∉ NodeType.typeNames → t ∈ NodeType.selected := by decide
      exact hall _ hhead hname
    have hempty : head.type ≠ .empty := by
      have hall : ∀ t ∈ NodeType.designators, t ≠ .empty := by decide
      exact hall _ hhead
    have hbuilt : Node.ofBranch .setValue [elements, head] = .error (.misplaced .setValue 1 head.type) := by
      have hcount : NodeType.setValue.allowsCount 2 = true := by decide
      have hfirst : NodeType.setValue.allowsAt 0 elements.type = true := by
        obtain h | h := helements <;> rw [h] <;> decide
      have hsecond : NodeType.setValue.allowsAt 1 head.type = false := by
        simp [NodeType.allowsAt, NodeType.shape, Bool.eq_false_iff, hempty, hname]
      have hbranch : NodeType.setValue.isBranch = true := by decide
      simp [Node.ofBranch, hbranch, Node.fault?, hcount, Node.misplaced?, hfirst, hsecond]
    unfold branch Yields Ensures
    rw [hbuilt]
    exact .intro hselected

/-- A designator stands alone, types a set or is called: an expression in each case. -/
theorem yields_designatorOrFuncCall (hQ : ∀ n : Node, n.type ∈ NodeType.expressions → Q n) :
    (designatorOrFuncCall ctx).Yields Q := by
  refine .enter (.bind (yields_designator fun head hhead => .starts ?_ (.starts ?_ ?_)))
  · refine .bind (yields_setValue fun elements helements => ?_)
    exact yields_typedSetValue helements hhead fun n hn => hQ n (by simp [hn, NodeType.expressions])
  · refine .bind (yields_actualParameters fun arguments harguments => ?_)
    exact yields_branch rfl (by simp [hhead, harguments]) fun n hn => hQ n (by simp [hn, NodeType.expressions])
  · exact hQ head (mem_expressions_of_designator hhead)

/-- All alternatives of a factor are expressions. -/
theorem yields_factor (hQ : ∀ n : Node, n.type ∈ NodeType.expressions → Q n) : (factor ctx).Yields Q := by
  refine .enter (.lookahead fun t => ?_)
  split
  · next literal hliteral =>
    obtain ⟨hshape, hmem⟩ : literal.shape = .terminal ∧ literal ∈ NodeType.expressions := by
      unfold literal? at hliteral
      split at hliteral <;> cases hliteral <;> exact ⟨rfl, by decide⟩
    exact .accept fun lexeme => yields_terminal hshape fun n hn => hQ n (by rw [hn]; exact hmem)
  · refine .starts (.bind (yields_setValue fun elements helements => ?_)) (.starts ?_ (.nextIs (.skip (.expression ?_)) ?_))
    · exact yields_branch rfl (by simp [helements]) fun n hn => hQ n (by simp [hn, NodeType.expressions])
    · exact yields_designatorOrFuncCall hQ
    · exact fun inner hinner => .expect (hQ inner hinner)
    · exact .noAlternative

/-- The negation of an expression is one. -/
theorem yields_simpleTerm (hQ : ∀ n : Node, n.type ∈ NodeType.expressions → Q n) : (simpleTerm ctx).Yields Q := by
  refine .enter (.nextIs (.skip (.bind (yields_factor fun operand hoperand => ?_))) (yields_factor hQ))
  exact yields_branch rfl (by simp [hoperand]) fun n hn => hQ n (by simp [hn, NodeType.expressions])

/-- Operators of a table make nodes of two expressions, which are expressions themselves. -/
theorem yields_leftAssociative {operator? : Token → Option NodeType} {operand : Script Node} {first : Node}
    (hoperator : ∀ t operator, operator? t = some operator →
      operator.shape = .branch [NodeType.expressionSlot, NodeType.expressionSlot] ∧ operator ∈ NodeType.expressions)
    (hoperand : operand.Yields (·.type ∈ NodeType.expressions)) (hfirst : first.type ∈ NodeType.expressions)
    (hQ : ∀ n : Node, n.type ∈ NodeType.expressions → Q n) : (leftAssociative operator? operand first).Yields Q := by
  refine yields_loop (fun n => n.type ∈ NodeType.expressions) hfirst fun left hleft => .lookahead fun t => ?_
  split
  · exact hQ left hleft
  · next operator hsome =>
    obtain ⟨hshape, hmem⟩ := hoperator t operator hsome
    refine .skip (.bind (hoperand.mono fun right hright => .bind ?_))
    refine yields_branch hshape (by simp [hleft, hright]) fun n hn => ?_
    show n.type ∈ NodeType.expressions
    rw [hn]
    exact hmem

/-- So is a product. -/
theorem yields_term (hQ : ∀ n : Node, n.type ∈ NodeType.expressions → Q n) : (term ctx).Yields Q := by
  refine .enter (.bind (yields_simpleTerm fun first hfirst => ?_))
  refine yields_leftAssociative ?_ (yields_simpleTerm fun _ hn => hn) hfirst hQ
  intro t operator hsome
  unfold multiplying? at hsome
  split at hsome <;> cases hsome <;> exact ⟨rfl, by decide⟩

/-- So is what has a sign before it. -/
theorem yields_signedTerm (hQ : ∀ n : Node, n.type ∈ NodeType.expressions → Q n) : (signedTerm ctx).Yields Q := by
  refine .lookahead fun t => ?_
  split
  · exact .skip (yields_term hQ)
  · refine .skip (.bind (yields_term fun operand hoperand => ?_))
    exact yields_branch rfl (by simp [hoperand]) fun n hn => hQ n (by simp [hn, NodeType.expressions])
  · exact yields_term hQ

/-- So is a sum. -/
theorem yields_simpleExpression (hQ : ∀ n : Node, n.type ∈ NodeType.expressions → Q n) :
    (simpleExpression ctx).Yields Q := by
  refine .enter (.bind (yields_signedTerm fun first hfirst => ?_))
  refine yields_leftAssociative ?_ (yields_term fun _ hn => hn) hfirst hQ
  intro t operator hsome
  unfold adding? at hsome
  split at hsome <;> cases hsome <;> exact ⟨rfl, by decide⟩

/-- So is a relation, which the rule of expressions may therefore yield. -/
theorem yields_expression : (expression ctx).Yields (·.type ∈ NodeType.expressions) := by
  refine .enter (.bind (yields_simpleExpression fun left hleft => .lookahead fun t => ?_))
  split
  · exact hleft
  · next operator hsome =>
    obtain ⟨hshape, hmem⟩ : operator.shape = .branch [NodeType.expressionSlot, NodeType.expressionSlot] ∧
        operator ∈ NodeType.expressions := by
      unfold relation? at hsome
      split at hsome <;> cases hsome <;> exact ⟨rfl, by decide⟩
    refine .skip (.bind (yields_simpleExpression fun right hright => ?_))
    refine yields_branch hshape (by simp [hleft, hright]) fun n hn => ?_
    rw [hn]
    exact hmem

/-! ## Types -/

/-- A complete range has two expressions. -/
theorem yields_range {Q : Option (Node × Node) → Prop} (hQ : ∀ low high : Node,
    low.type ∈ NodeType.expressions → high.type ∈ NodeType.expressions → Q (some (low, high))) :
    (range ctx).Yields Q :=
  .enter (.expect (.expression fun low hlow => .expect (.expression fun high hhigh => .expect (hQ low high hlow hhigh))))

/-- A range can be built of its bounds and a base, if it has one. -/
theorem yields_subrange {base : Node} (hbase : base.type = .empty ∨ base.type ∈ NodeType.typeNames)
    (hQ : ∀ n : Node, n.type = .subrange → Q n) : (subrange ctx base).Yields Q := by
  refine .bind (yields_range fun low high hlow hhigh => ?_)
  exact yields_branch rfl (by simp [hlow, hhigh, hbase]) hQ

/-- After a name there is a range of it, or nothing. -/
theorem yields_namedOrSubrange (hQ : ∀ n : Node, n.type ∈ NodeType.typeNames ++ [.subrange] → Q n) :
    (namedOrSubrange ctx).Yields Q := by
  refine .bind (yields_qualident fun base hbase => .nextIs ?_ (hQ base (List.mem_append_left _ hbase)))
  exact yields_subrange (.inr hbase) fun n hn => hQ n (by simp [hn])

/-- An enumeration can be built of its values and the type that it extends. -/
theorem yields_enumType (hQ : ∀ n : Node, n.type = .enumeration → Q n) : (enumType ctx).Yields Q := by
  refine .enter (.skip (.bind (yields_identList fun values hvalues => .expect ?_)))
  exact yields_branch rfl (by simp [hvalues]) hQ

/-- Ranges, enumerations and names are countable. -/
theorem yields_countableType (hQ : ∀ n : Node, n.type ∈ NodeType.countables → Q n) : (countableType ctx).Yields Q := by
  refine .enter (.starts ?_ (.starts ?_ (.starts ?_ .noAlternative)))
  · exact yields_subrange (.inl rfl) fun n hn => hQ n (by simp [hn, NodeType.countables])
  · exact yields_enumType fun n hn => hQ n (by simp [hn, NodeType.countables])
  · refine yields_namedOrSubrange fun n hn => hQ n ?_
    have hall : ∀ t ∈ NodeType.typeNames ++ [.subrange], t ∈ NodeType.countables := by decide
    exact hall _ hn

/-- A type is derived from a name, or a range. -/
theorem yields_derivedOrSubrangeType (hQ : ∀ n : Node, n.type ∈ NodeType.typeNames ++ [.subrange] → Q n) :
    (derivedOrSubrangeType ctx).Yields Q :=
  .enter (.nextIs (yields_namedOrSubrange hQ) (yields_subrange (.inl rfl) fun n hn => hQ n (by simp [hn])))

/-- A set type can be built of a countable base. -/
theorem yields_setType (hQ : ∀ n : Node, n.type = .setType → Q n) : (setType ctx).Yields Q := by
  refine .enter (.skip (.expect (.bind (yields_countableType fun base hbase => ?_))))
  exact yields_branch rfl (by simp [hbase]) hQ

/-- An array type can be built of countable indices and any type. -/
theorem yields_arrayType (hQ : ∀ n : Node, n.type = .arrayType → Q n) : (arrayType ctx).Yields Q := by
  refine .enter (.skip (.bind (yields_separated (yields_countableType fun _ hn => hn) fun ns hne hns => .expect ?_)))
  refine .bind (yields_nonemptyList rfl (by decide) hne hns fun indices hindices => .typeExpression fun element helement => ?_)
  exact yields_branch rfl (by simp [hindices, helement]) hQ

/-- Fields can be built of their names and any type. -/
theorem yields_fieldList (hQ : ∀ n : Node, n.type = .fieldList → Q n) : (fieldList ctx).Yields Q := by
  refine .enter (.starts (.bind (yields_identList fun idents hidents => .expect (.typeExpression fun type htype => ?_))) ?_)
  · have htype : type.type ∈ NodeType.typeExpressions := htype
    exact yields_branch rfl (by simp [hidents, htype]) hQ
  · exact .noAlternative

/-- A row of field lists has the items that were yielded. -/
theorem yields_fieldLists {follow : TokenSet} {item : Script Node} {P : Node → Prop} {Q : List Node → Prop}
    (hitem : item.Yields P) (hQ : ∀ ns, (∀ n ∈ ns, P n) → Q ns) : (fieldLists follow item).Yields Q := by
  refine .lookahead fun t => ?_
  split
  · exact hQ [] (by simp)
  · exact yields_semicolonSeparated hitem hQ

/-- The fields of a record are a sequence, or empty. -/
theorem yields_fieldListSequence (hQ : ∀ n : Node, n.type = .empty ∨ n.type = .fieldListSequence → Q n) :
    (fieldListSequence ctx).Yields Q := by
  refine .enter (.bind (yields_fieldLists (yields_fieldList fun _ hn => hn) fun ns hns => ?_))
  exact yields_list rfl (fun n hn => .inr (by simp [hns n hn])) hQ

/-- A record extends another one, or does not. -/
theorem yields_extensibleRecordType (hQ : ∀ n : Node, n.type ∈ [.recordType, .extensibleRecord] → Q n) :
    (extensibleRecordType ctx).Yields Q := by
  refine .enter (.skip (.nextIs (.skip (.bind (yields_qualident fun base hbase => .expect (.bind ?_)))) (.bind ?_)))
  · refine yields_fieldListSequence fun fields hfields => .expect ?_
    exact yields_branch rfl (by simp [hbase, hfields]) fun n hn => hQ n (by simp [hn])
  · refine yields_fieldListSequence fun fields hfields => .expect ?_
    exact yields_branch rfl (by simp [hfields]) fun n hn => hQ n (by simp [hn])

/-- Field lists of a variant record are plain, or have variants. -/
theorem yields_variantFieldList (hQ : ∀ n : Node, n.type ∈ [.fieldList, .variantFieldList] → Q n) :
    (variantFieldList ctx).Yields Q := by
  refine .enter (.starts (yields_fieldList fun n hn => hQ n (by simp [hn])) (.starts ?_ .noAlternative))
  exact fun n hn => hQ n (List.mem_cons_of_mem _ hn)

/-- So are all of them between semicolons. -/
theorem yields_variantFieldListSeq {Q : List Node → Prop}
    (hQ : ∀ ns : List Node, (∀ n ∈ ns, n.type ∈ [.fieldList, .variantFieldList]) → Q ns) :
    (variantFieldListSeq ctx).Yields Q := by
  refine .enter (.bind (yields_fieldLists (yields_variantFieldList fun _ hn => hn) fun ns hns => ?_))
  exact hQ _ fun n hn => hns n (List.mem_of_mem_filter hn)

/-- Plain field lists and those with variants make one sequence. -/
theorem yields_variantFieldListSequence {ns : List Node} (h : ∀ n ∈ ns, n.type ∈ [.fieldList, .variantFieldList])
    (hQ : ∀ n : Node, n.type = .empty ∨ n.type = .variantFieldListSequence → Q n) :
    (list .variantFieldListSequence ns).Yields Q :=
  yields_list rfl (fun n hn => .inr (h n hn)) hQ

/-- A record has variants, or does not. -/
theorem yields_variantRecordType (hQ : ∀ n : Node, n.type ∈ [.recordType, .variantRecord] → Q n) :
    (variantRecordType ctx).Yields Q := by
  refine .enter (.skip (.bind (yields_variantFieldListSeq fun ns hns => .expect ?_)))
  split
  · next hall =>
    refine .bind (yields_list rfl (fun n hn => .inr ?_) fun fields hfields => ?_)
    · simpa using List.all_eq_true.mp hall n hn
    · exact yields_branch rfl (by simp [hfields]) fun n hn => hQ n (by simp [hn])
  · refine .bind (yields_variantFieldListSequence hns fun fields hfields => ?_)
    exact yields_branch rfl (by simp [hfields]) fun n hn => hQ n (by simp [hn])

/-- A label can be built of one expression or two. -/
theorem yields_caseLabels (hQ : ∀ n : Node, n.type = .caseLabels → Q n) : caseLabels.Yields Q := by
  refine .enter (.expression fun low hlow => .nextIs (.skip (.expression fun high hhigh => ?_)) ?_)
  · exact yields_branch rfl (by simp [hlow, hhigh]) hQ
  · exact yields_branch rfl (by simp [hlow]) hQ

/-- There is at least one label. -/
theorem yields_caseLabelList (hQ : ∀ n : Node, n.type = .caseLabelList → Q n) : caseLabelList.Yields Q := by
  refine .enter (.bind (yields_separated (yields_caseLabels fun _ hn => hn) fun ns hne hns => ?_))
  exact yields_nonemptyList rfl (by decide) hne (fun n hn => by simp [hns n hn]) hQ

/-- A variant can be built of its labels and fields. -/
theorem yields_variant (hQ : ∀ n : Node, n.type = .variant → Q n) : (variant ctx).Yields Q := by
  refine .enter (.bind (yields_caseLabelList fun labels hlabels => .expect (.bind ?_)))
  refine yields_variantFieldListSeq fun ns hns => .bind (yields_variantFieldListSequence hns fun fields hfields => ?_)
  exact yields_branch rfl (by simp [hlabels, hfields]) hQ

/-- Variant fields can be built of their parts, of which there is at least one variant. -/
theorem yields_variantFields : (variantFields ctx).Yields (·.type ∈ [.variantFieldList]) := by
  refine .enter (.skip (.test fun tagged => ?_))
  extract_lets rest
  have hrest : ∀ tag : Node, tag.type = .empty ∨ tag.type = .ident →
      (rest tag).Yields (·.type ∈ [.variantFieldList]) := by
    refine fun tag htag => .expect (.bind (yields_qualident fun tagType htagType => .expect (.bind ?_)))
    refine yields_barred (yields_variant fun _ hn => hn) fun variants hvariants => .test fun exhaustive => ?_
    extract_lets last
    have hlast : ∀ otherwise : Node, otherwise.type = .empty ∨ otherwise.type = .variantFieldListSequence →
        (last otherwise).Yields (·.type ∈ [.variantFieldList]) := by
      refine fun otherwise hotherwise => .expect (.bind (yields_list rfl (fun n hn => .inr ?_) fun variants hvariants => ?_))
      · simp [hvariants n hn]
      · exact yields_branch rfl (by simp [htag, htagType, hvariants, hotherwise]) (by simp)
    split
    · exact .skip (.bind (yields_variantFieldListSeq fun ns hns => .bind (yields_variantFieldListSequence hns hlast)))
    · exact hlast _ (.inl rfl)
  split
  · exact .accept fun lexeme => .bind (yields_terminal rfl fun tag htag => hrest tag (.inr htag))
  · exact hrest _ (.inl rfl)

/-- A pointer type can be built of any type. -/
theorem yields_pointerType (hQ : ∀ n : Node, n.type = .pointerType → Q n) : (pointerType ctx).Yields Q := by
  refine .enter (.skip (.expect (.typeExpression fun target htarget => ?_)))
  exact yields_branch rfl (by simp [htarget]) hQ

/-- A formal type is a name, or an open array of one. -/
theorem yields_simpleFormalType (hQ : ∀ n : Node, n.type ∈ NodeType.simpleFormals → Q n) :
    (simpleFormalType ctx).Yields Q := by
  have hqualident : (qualident ctx).Yields Q := by
    refine yields_qualident fun n hn => hQ n ?_
    have hall : ∀ t ∈ NodeType.typeNames, t ∈ NodeType.simpleFormals := by decide
    exact hall _ hn
  unfold simpleFormalType
  refine .enter (.test fun isOpen => ?_)
  split
  · refine .skip (.expect (.bind (yields_qualident fun element helement => ?_)))
    exact yields_branch rfl (by simp [helement]) fun n hn => hQ n (by simp [hn, NodeType.simpleFormals])
  · exact hqualident

/-- The word of an attribute is one of two. -/
theorem yields_passing {Q : NodeType → Prop} (hQ : ∀ t ∈ [NodeType.constParameter, .varParameter], Q t) :
    passing.Yields Q := by
  refine .test fun isConst => ?_
  extract_lets type
  refine .skip (hQ type ?_)
  simp only [type]
  split <;> simp

/-- Both attributes of a parameter make a node of its type. -/
theorem yields_attributed {passing : NodeType} {type : Node} (hpassing : passing ∈ [.constParameter, .varParameter])
    (htype : type.type ∈ NodeType.simpleFormals)
    (hQ : ∀ n : Node, n.type ∈ [.constParameter, .varParameter] → Q n) : (branch passing [type]).Yields Q := by
  have hshape : passing.shape = .branch [.required NodeType.simpleFormals] := by
    obtain rfl | rfl : passing = .constParameter ∨ passing = .varParameter := by simpa using hpassing
    · rfl
    · rfl
  refine yields_branch hshape (by simp [htype]) fun n hn => hQ n ?_
  rw [hn]
  exact hpassing

/-- A formal type has an attribute or none. -/
theorem yields_formalType
    (hQ : ∀ n : Node, n.type ∈ NodeType.simpleFormals ++ [.constParameter, .varParameter] → Q n) :
    (formalType ctx).Yields Q := by
  refine .enter (.starts (yields_simpleFormalType fun n hn => hQ n (List.mem_append_left _ hn)) (.starts ?_ ?_))
  · refine .enter (.bind (yields_passing fun passing hpassing => .bind (yields_simpleFormalType fun type htype => ?_)))
    exact yields_attributed hpassing htype fun n hn => hQ n (List.mem_append_right _ hn)
  · exact .noAlternative

/-- A result is a type name, or empty. -/
theorem yields_resultType (hQ : ∀ n : Node, n.type = .empty ∨ n.type ∈ NodeType.typeNames → Q n) :
    (resultType ctx).Yields Q :=
  .nextIs (.skip (yields_qualident fun n hn => hQ n (.inr hn))) (hQ _ (.inl rfl))

/-- A procedure type can be built of formal types and a result. -/
theorem yields_procedureType (hQ : ∀ n : Node, n.type = .procedureType → Q n) : (procedureType ctx).Yields Q := by
  refine .enter (.skip (.test fun listed => ?_))
  extract_lets rest close
  have hrest : ∀ formals : List Node,
      (∀ n ∈ formals, n.type ∈ NodeType.simpleFormals ++ [.constParameter, .varParameter]) → (rest formals).Yields Q := by
    refine fun ns hns => .bind (yields_resultType fun result hresult => .bind ?_)
    refine yields_list rfl (fun n hn => .inr (hns n hn)) fun formals hformals => ?_
    exact yields_branch rfl (by simp [hformals, hresult]) hQ
  split
  · refine .skip (.testStarts fun any => ?_)
    have hclose : ∀ formals : List Node,
        (∀ n ∈ formals, n.type ∈ NodeType.simpleFormals ++ [.constParameter, .varParameter]) →
          (close formals).Yields Q := fun formals hformals => .expect (hrest formals hformals)
    split
    · exact .bind (yields_separated (yields_formalType fun _ hn => hn) fun ns _ hns => hclose ns hns)
    · exact hclose [] (by simp)
  · exact hrest [] (by simp)

/-- All alternatives are types, which the rule may therefore yield. -/
theorem yields_typeExpression : (typeExpression ctx).Yields (·.type ∈ NodeType.typeExpressions) := by
  refine .enter (.starts ?_ (.starts ?_ (.starts ?_ (.starts ?_ (.nextIs ?_ (.starts ?_ (.starts ?_ .noAlternative)))))))
  · have hall : ∀ t ∈ NodeType.typeNames ++ [.subrange], t ∈ NodeType.typeExpressions := by decide
    exact yields_derivedOrSubrangeType fun n hn => hall _ hn
  · exact yields_enumType fun n hn => by simp [hn, NodeType.typeExpressions]
  · exact yields_setType fun n hn => by simp [hn, NodeType.typeExpressions]
  · exact yields_arrayType fun n hn => by simp [hn, NodeType.typeExpressions]
  · split
    · have hall : ∀ t ∈ [NodeType.recordType, .variantRecord], t ∈ NodeType.typeExpressions := by decide
      exact yields_variantRecordType fun n hn => hall _ hn
    · have hall : ∀ t ∈ [NodeType.recordType, .extensibleRecord], t ∈ NodeType.typeExpressions := by decide
      exact yields_extensibleRecordType fun n hn => hall _ hn
  · exact yields_pointerType fun n hn => by simp [hn, NodeType.typeExpressions]
  · exact yields_procedureType fun n hn => by simp [hn, NodeType.typeExpressions]

/-- Parameters can be built of their names, type and attribute. -/
theorem yields_simpleFormalParams {passing : Option NodeType}
    (hpassing : ∀ t ∈ passing, t ∈ [NodeType.constParameter, .varParameter])
    (hQ : ∀ n : Node, n.type = .formalParameters → Q n) : (simpleFormalParams ctx passing).Yields Q := by
  refine .enter (.bind (yields_identList fun idents hidents => .expect (.bind (yields_simpleFormalType fun type htype => ?_))))
  split
  · next t =>
    refine .bind (yields_attributed (hpassing t rfl) htype fun attributed hattributed => ?_)
    refine yields_branch rfl ?_ hQ
    have hmember : attributed.type = .constParameter ∨ attributed.type = .varParameter := by simpa using hattributed
    simp [hidents, hmember]
  · exact yields_branch rfl (by simp [hidents, htype]) hQ

/-- So they can after the word of the attribute. -/
theorem yields_formalParams (hQ : ∀ n : Node, n.type = .formalParameters → Q n) : (formalParams ctx).Yields Q := by
  refine .enter (.starts (yields_simpleFormalParams (by simp) hQ) (.starts (.enter (.bind ?_)) .noAlternative))
  exact yields_passing fun t ht => yields_simpleFormalParams (fun u hu => Option.mem_some.mp hu ▸ ht) hQ

/-- There may be no parameters. -/
theorem yields_formalParamList (hQ : ∀ n : Node, n.type = .empty ∨ n.type = .formalParameterList → Q n) :
    (formalParamList ctx).Yields Q := by
  refine .enter (.bind (yields_semicolonSeparated (yields_formalParams fun _ hn => hn) fun ns hns => ?_))
  exact yields_list rfl (fun n hn => .inr (by simp [hns n hn])) hQ

/-- A signature is the node of a heading. -/
theorem yields_procedureSignature (hQ : ∀ n : Node, n.type = .procedureHeader → Q n) :
    (procedureSignature ctx).Yields Q := by
  refine .enter (.expectIdent fun ident => .bind (yields_terminal rfl fun name hname => .nextIs (.skip ?_) ?_))
  · refine .testStarts fun any => ?_
    extract_lets close
    have hclose : ∀ params : Node, params.type = .empty ∨ params.type = .formalParameterList →
        (close params).Yields Q := by
      refine fun params hparams => .expect (.bind (yields_resultType fun result hresult => ?_))
      exact yields_branch rfl (by simp [hname, hparams, hresult]) hQ
    split
    · exact .bind (yields_formalParamList hclose)
    · exact hclose _ (.inl rfl)
  · exact yields_branch rfl (by simp [hname]) hQ

/-- So is what follows the word. -/
theorem yields_procedureHeader (hQ : ∀ n : Node, n.type = .procedureHeader → Q n) :
    (procedureHeader ctx).Yields Q := .enter (.skip (yields_procedureSignature hQ))

/-! ## Statements -/

/-- Designators are assigned to or called. -/
theorem yields_assignmentOrProcCall (hQ : ∀ n : Node, n.type ∈ NodeType.statements → Q n) :
    (assignmentOrProcCall ctx).Yields Q := by
  refine .enter (.bind (yields_designator fun target htarget => .nextIs (.skip (.expression fun value hvalue => ?_)) ?_))
  · exact yields_branch rfl (by simp [htarget, hvalue]) fun n hn => hQ n (by simp [hn, NodeType.statements])
  · refine .testStarts fun called => ?_
    extract_lets rest
    have hrest : ∀ arguments : Node, arguments.type = .empty ∨ arguments.type = .arguments →
        (rest arguments).Yields Q := fun arguments harguments =>
      yields_branch rfl (by simp [htarget, harguments]) fun n hn => hQ n (by simp [hn, NodeType.statements])
    split
    · exact .bind (yields_actualParameters hrest)
    · exact hrest _ (.inl rfl)

/-- An expression is returned, or nothing. -/
theorem yields_returnStatement (hQ : ∀ n : Node, n.type = .returnStatement → Q n) :
    (returnStatement ctx).Yields Q := by
  refine .enter (.skip (.starts (.expression fun value hvalue => ?_) ?_))
  · exact yields_branch rfl (by simp [hvalue]) hQ
  · exact yields_branch rfl (by simp) hQ

/-- A designator can be opened for any statements. -/
theorem yields_withStatement (hQ : ∀ n : Node, n.type = .withStatement → Q n) : (withStatement ctx).Yields Q := by
  refine .enter (.skip (.bind (yields_designator fun record hrecord => .expect (.statements fun body hbody => ?_))))
  exact .expect (yields_branch rfl (by simp [hrecord, hbody]) hQ)

/-- There may be no statements for all other cases. -/
theorem yields_elsePart (hQ : ∀ n : Node, n.type = .empty ∨ n.type = .statementSequence → Q n) :
    elsePart.Yields Q := by
  refine .nextIs (.skip fun n hn => hQ n ?_) (hQ _ (.inl rfl))
  simpa [Rule.types] using hn

/-- All that is collected are further conditions. -/
theorem yields_elsifs {follow : TokenSet} {Q : Option (List Node) → Prop}
    (hQ : ∀ ns : List Node, (∀ n ∈ ns, n.type = .elsif) → Q (some ns)) : (elsifs follow).Yields Q := by
  refine yields_loop (fun branches => ∃ ns : List Node, branches = some ns ∧ ∀ n ∈ ns, n.type = .elsif)
    ⟨[], rfl, by simp⟩ ?_
  rintro _ ⟨ns, rfl, hns⟩
  refine .nextIs (.skip (.expression fun condition hcondition => .expect (.statements fun body hbody => .bind ?_))) ?_
  · refine yields_branch rfl (by simp [hcondition, hbody]) fun n hn => ⟨n :: ns, rfl, ?_⟩
    simpa using ⟨hn, hns⟩
  · exact hQ ns.reverse (by simpa using hns)

/-- A conditional statement can be built with any further conditions, or none. -/
theorem yields_ifStatement (hQ : ∀ n : Node, n.type = .ifStatement → Q n) : (ifStatement ctx).Yields Q := by
  refine .enter (.skip (.expression fun condition hcondition => .expect (.statements fun body hbody => .bind ?_)))
  refine yields_elsifs fun ns hns => .bind (yields_elsePart fun otherwise hotherwise => .expect (.bind ?_))
  refine yields_list rfl (fun n hn => .inr (by simp [hns n hn])) fun alternatives halternatives => ?_
  exact yields_branch rfl (by simp [hcondition, hbody, halternatives, hotherwise]) hQ

/-- A case can be built of its labels and any statements. -/
theorem yields_caseBranch (hQ : ∀ n : Node, n.type = .caseBranch → Q n) : (caseBranch ctx).Yields Q := by
  refine .enter (.bind (yields_caseLabelList fun labels hlabels => .expect (.statements fun body hbody => ?_)))
  exact yields_branch rfl (by simp [hlabels, hbody]) hQ

/-- A statement can be built of its cases, none of them being necessary. -/
theorem yields_caseStatement (hQ : ∀ n : Node, n.type = .caseStatement → Q n) : (caseStatement ctx).Yields Q := by
  refine .enter (.skip (.expression fun selector hselector => .expect (.bind ?_)))
  refine yields_barred (yields_caseBranch fun _ hn => hn) fun ns hns => .bind (yields_elsePart fun otherwise hotherwise => ?_)
  refine .expect (.bind (yields_list rfl (fun n hn => .inr (by simp [hns n hn])) fun cases hcases => ?_))
  exact yields_branch rfl (by simp [hselector, hcases, hotherwise]) hQ

/-- A loop can be built of any statements. -/
theorem yields_loopStatement (hQ : ∀ n : Node, n.type = .loopStatement → Q n) : (loopStatement ctx).Yields Q :=
  .enter (.skip (.statements fun body hbody => .expect (yields_branch rfl (by simp [hbody]) hQ)))

/-- So can one with a condition before the statements. -/
theorem yields_whileStatement (hQ : ∀ n : Node, n.type = .whileStatement → Q n) : (whileStatement ctx).Yields Q := by
  refine .enter (.skip (.expression fun condition hcondition => .expect (.statements fun body hbody => .expect ?_)))
  exact yields_branch rfl (by simp [hcondition, hbody]) hQ

/-- So can one with a condition after the statements. -/
theorem yields_repeatStatement (hQ : ∀ n : Node, n.type = .repeatStatement → Q n) :
    (repeatStatement ctx).Yields Q := by
  refine .enter (.skip (.statements fun body hbody => .expect (.expression fun condition hcondition => ?_)))
  exact yields_branch rfl (by simp [hbody, hcondition]) hQ

/-- So can one over a range. -/
theorem yields_forStatement (hQ : ∀ n : Node, n.type = .forStatement → Q n) : (forStatement ctx).Yields Q := by
  refine .enter (.skip (.expectIdent fun control => .expect (.expression fun first hfirst => .expect ?_)))
  refine .expression fun last hlast => .test fun stepped => ?_
  extract_lets rest
  have hrest : ∀ step : Node, step.type = .empty ∨ step.type ∈ NodeType.expressions → (rest step).Yields Q := by
    refine fun step hstep => .expect (.statements fun body hbody => .expect (.bind ?_))
    refine yields_terminal rfl fun control hcontrol => ?_
    exact yields_branch rfl (by simp [hcontrol, hfirst, hlast, hstep, hbody]) hQ
  split
  · exact .skip (.expression fun step hstep => hrest step (.inr hstep))
  · exact hrest _ (.inl rfl)

/-- All alternatives are statements. -/
theorem yields_statement (hQ : ∀ n : Node, n.type ∈ NodeType.statements → Q n) : (statement ctx).Yields Q := by
  refine .enter (.lookahead fun t => ?_)
  split
  · exact yields_assignmentOrProcCall hQ
  · exact yields_returnStatement fun n hn => hQ n (by simp [hn, NodeType.statements])
  · exact yields_withStatement fun n hn => hQ n (by simp [hn, NodeType.statements])
  · exact yields_ifStatement fun n hn => hQ n (by simp [hn, NodeType.statements])
  · exact yields_caseStatement fun n hn => hQ n (by simp [hn, NodeType.statements])
  · exact yields_loopStatement fun n hn => hQ n (by simp [hn, NodeType.statements])
  · exact yields_whileStatement fun n hn => hQ n (by simp [hn, NodeType.statements])
  · exact yields_repeatStatement fun n hn => hQ n (by simp [hn, NodeType.statements])
  · exact yields_forStatement fun n hn => hQ n (by simp [hn, NodeType.statements])
  · exact .skip (yields_branch rfl (by simp) fun n hn => hQ n (by simp [hn, NodeType.statements]))
  · exact .noAlternative

/-- Statements are a sequence, or empty, as the rule is said to yield. -/
theorem yields_statementSequence : (statementSequence ctx).Yields (·.type ∈ [.empty, .statementSequence]) := by
  refine .enter (.lookahead fun t => ?_)
  split
  · exact List.mem_cons_self
  · refine .bind (yields_statement fun first hfirst => .bind ?_)
    refine yields_loop (fun ns => ∀ n ∈ ns, n.type ∈ NodeType.statements) (by simpa using hfirst) fun ns hns => ?_
    have hdone : (list .statementSequence ns.reverse).Yields (·.type ∈ [.empty, .statementSequence]) :=
      yields_list rfl (fun n hn => .inr (hns n (List.mem_reverse.mp hn))) (by simp)
    have hmore : (statement ctx).Yields fun n => ∀ m ∈ n :: ns, m.type ∈ NodeType.statements :=
      yields_statement fun n hn => by simpa using ⟨hn, hns⟩
    refine .lookahead fun t => ?_
    split
    · refine .skip (.lookahead fun t => ?_)
      split
      · exact hdone
      · exact hmore
    · split
      · trivial
      · exact hdone

/-! ## Declarations -/

/-- The items of a section are those of its production. -/
theorem yields_itemSection {p : Production} {item : Script Node} {follow : TokenSet} {P : Node → Prop}
    {Q : List Node → Prop} (hitem : item.Yields P) (hQ : ∀ ns : List Node, (∀ n ∈ ns, P n) → Q ns) :
    (itemSection ctx p item follow).Yields Q := by
  refine .skip (yields_whileStarts (.bind (hitem.mono fun n hn => ?_)) hQ)
  simpa using hn

/-- One declaration makes a row of one. -/
theorem yields_closed {item : Script Node} {follow : TokenSet} {P : Node → Prop} {Q : List Node → Prop}
    (hitem : item.Yields P) (hQ : ∀ ns : List Node, (∀ n ∈ ns, P n) → Q ns) : (closed item follow).Yields Q := by
  refine .bind (hitem.mono fun n hn => ?_)
  simpa using hQ [n] (by simpa using hn)

/-- A constant can be built of its name and value. -/
theorem yields_constDefinition : (constDefinition ctx).Yields (·.type = .constDefinition) := by
  refine .enter (.expectIdent fun ident => .expect (.bind (yields_terminal rfl fun name hname => ?_)))
  exact .expression fun value hvalue => yields_branch rfl (by simp [hname, hvalue]) fun _ hn => hn

/-- A type can be built of its name, with the type or without. -/
theorem yields_typeDefinition : (typeDefinition ctx).Yields (·.type = .typeDefinition) := by
  refine .enter (.expectIdent fun ident => .bind (yields_terminal rfl fun name hname => .nextIs (.skip ?_) ?_))
  · exact .typeExpression fun type htype => yields_branch rfl (by simp [hname, htype]) fun _ hn => hn
  · exact yields_branch rfl (by simp [hname]) fun _ hn => hn

/-- Variables can be built of their names and type. -/
theorem yields_variableDeclaration : (variableDeclaration ctx).Yields (·.type = .variableDeclaration) := by
  refine .enter (.bind (yields_identList fun idents hidents => .expect (.typeExpression fun type htype => ?_)))
  exact yields_branch rfl (by simp [hidents, htype]) fun _ hn => hn

/-- Each section yields definitions of its own kind. -/
theorem yields_definition : (definition ctx).Yields fun ns => ∀ n ∈ ns,
    n.type ∈ [.constDefinition, .typeDefinition, .variableDeclaration, .procedureHeader] := by
  refine .enter (.lookahead fun t => ?_)
  split
  · exact yields_itemSection yields_constDefinition fun ns hns n hn => by simp [hns n hn]
  · exact yields_itemSection yields_typeDefinition fun ns hns n hn => by simp [hns n hn]
  · exact yields_itemSection yields_variableDeclaration fun ns hns n hn => by simp [hns n hn]
  · exact yields_closed (yields_procedureHeader fun _ hn => hn) fun ns hns n hn => by simp [hns n hn]
  · exact .bind .noAlternative

/-- A record of variable size can be built of its fields and the one that varies. -/
theorem yields_varSizeRecordType : (varSizeRecordType ctx).Yields (·.type = .varSizeRecord) := by
  refine .enter (.skip (.expect (.bind (yields_fieldListSequence fun fields hfields => .expect ?_))))
  refine .expectIdent fun field => .expect (.expect (.expectIdent fun size => .expect (.bind ?_)))
  refine yields_qualident fun element helement => .expect (.bind (yields_terminal rfl fun field hfield => .bind ?_))
  refine yields_terminal rfl fun size hsize => .bind ?_
  refine yields_branch rfl (by simp [hfield, hsize, helement]) fun last hlast => ?_
  exact yields_branch rfl (by simp [hfields, hlast]) fun _ hn => hn

/-- A declared type is any type, or a record of variable size. -/
theorem yields_typeDeclarationTail :
    (typeDeclarationTail ctx).Yields (·.type ∈ NodeType.typeExpressions ++ [.varSizeRecord]) := by
  refine .enter (.starts (fun n hn => List.mem_append_left _ hn) (.starts ?_ .noAlternative))
  exact yields_varSizeRecordType.mono fun n hn => by simp [hn]

/-- A type can be declared as any of them. -/
theorem yields_typeDeclaration : (typeDeclaration ctx).Yields (·.type = .typeDeclaration) := by
  refine .enter (.expectIdent fun ident => .expect (.bind (yields_terminal rfl fun name hname => .bind ?_)))
  exact yields_typeDeclarationTail.mono fun tail htail =>
    yields_branch rfl (by simpa [hname] using htail) fun _ hn => hn

/-- Comparing names yields nothing. -/
theorem yields_checkClosing {opening closing : Option String} {Q : Unit → Prop} (hQ : Q ()) :
    (checkClosing opening closing).Yields Q := by
  unfold checkClosing
  split
  · split
    · exact hQ
    · trivial
  · exact hQ

/-- A procedure can be built of its heading and block. -/
theorem yields_procedureDeclaration : (procedureDeclaration ctx).Yields (·.type = .procedureDeclaration) := by
  refine .enter (.bind (yields_procedureHeader fun header hheader => .expect (.block fun body hbody => ?_)))
  refine .expectIdent fun closing => .bind (yields_checkClosing ?_)
  exact yields_branch rfl (by simp [hheader, hbody]) fun _ hn => hn

/-- Imports are a list, or empty. -/
theorem yields_imports (hQ : ∀ n : Node, n.type = .empty ∨ n.type = .importList → Q n) : (imports ctx).Yields Q := by
  have hqualified : (qualifiedImport ctx).Yields (·.type ∈ [.qualifiedImport, .unqualifiedImport]) := by
    refine .enter (.skip (.bind (yields_identList fun idents hidents => .expect ?_)))
    exact yields_branch rfl (by simp [hidents]) fun n hn => by simp [hn]
  have hunqualified : (unqualifiedImport ctx).Yields (·.type ∈ [.qualifiedImport, .unqualifiedImport]) := by
    refine .enter (.skip (.expectIdent fun source => .expect (.bind (yields_identList fun idents hidents => .expect ?_))))
    refine .bind (yields_terminal rfl fun source hsource => ?_)
    exact yields_branch rfl (by simp [hsource, hidents]) fun n hn => by simp [hn]
  have hclause : (importClause ctx).Yields (·.type ∈ [.qualifiedImport, .unqualifiedImport]) :=
    .enter (.starts hqualified (.starts hunqualified .noAlternative))
  exact .bind (yields_whileStarts hclause fun ns hns => yields_list rfl (fun n hn => .inr (hns n hn)) hQ)

/-- A priority is an expression, or empty. -/
theorem yields_optionalPriority (hQ : ∀ n : Node, n.type = .empty ∨ n.type ∈ NodeType.expressions → Q n) :
    (optionalPriority ctx).Yields Q :=
  .starts (.enter (.skip (.expression fun n hn => .expect (hQ n (.inr hn))))) (hQ _ (.inl rfl))

/-- The end of a heading yields nothing. -/
theorem yields_endHeading {body : TokenSet} {Q : Unit → Prop} (hQ : Q ()) : (endHeading body).Yields Q := by
  refine .nextIs ?_ trivial
  simpa using hQ

/-- An export is qualified, or not. -/
theorem yields_exportClause (hQ : ∀ n : Node, n.type ∈ [.unqualifiedExport, .qualifiedExport] → Q n) :
    (exportClause ctx).Yields Q := by
  refine .enter (.skip (.test fun qualified => ?_))
  extract_lets rest
  have hrest : ∀ type : NodeType, type = .unqualifiedExport ∨ type = .qualifiedExport → (rest type).Yields Q := by
    refine fun type htype => .bind (yields_identList fun idents hidents => .expect ?_)
    have hshape : type.shape = .branch [NodeType.identListSlot] := by
      obtain rfl | rfl := htype <;> rfl
    exact yields_branch hshape (by simp [hidents]) fun n hn => hQ n (by simpa [hn] using htype)
  split
  · exact .skip (hrest _ (.inr rfl))
  · exact hrest _ (.inl rfl)

/-- A local module can be built of its name, priority, imports, export and block. -/
theorem yields_moduleDeclaration : (moduleDeclaration ctx).Yields (·.type = .moduleDeclaration) := by
  refine .enter (.skip (.expectIdent fun ident => .bind (yields_optionalPriority fun priority hpriority => .bind ?_)))
  refine yields_endHeading (.bind (yields_imports fun imports himports => .testStarts fun exports => ?_))
  extract_lets rest
  have hrest : ∀ exported : Node, exported.type = .empty ∨ exported.type ∈ [.unqualifiedExport, .qualifiedExport] →
      (rest exported).Yields (·.type = .moduleDeclaration) := by
    refine fun exported hexported => .block fun block hblock => .expectIdent fun closing => .bind ?_
    refine yields_checkClosing (.bind (yields_terminal rfl fun name hname => ?_))
    exact yields_branch rfl (by simpa [hname, hpriority, himports, hblock] using hexported) fun _ hn => hn
  split
  · exact .bind (yields_exportClause fun exported hexported => hrest exported (.inr hexported))
  · exact hrest _ (.inl rfl)

/-- Each section yields declarations of its own kind. -/
theorem yields_declaration : (declaration ctx).Yields fun ns => ∀ n ∈ ns,
    n.type ∈ [.constDefinition, .typeDeclaration, .variableDeclaration, .procedureDeclaration, .moduleDeclaration] := by
  refine .enter (.lookahead fun t => ?_)
  split
  · exact yields_itemSection yields_constDefinition fun ns hns n hn => by simp [hns n hn]
  · exact yields_itemSection yields_typeDeclaration fun ns hns n hn => by simp [hns n hn]
  · exact yields_itemSection yields_variableDeclaration fun ns hns n hn => by simp [hns n hn]
  · exact yields_closed yields_procedureDeclaration fun ns hns n hn => by simp [hns n hn]
  · exact yields_closed yields_moduleDeclaration fun ns hns n hn => by simp [hns n hn]
  · exact .bind .noAlternative

/-- A block can be built of any declarations and statements. -/
theorem yields_block : (block ctx).Yields (·.type ∈ [.block]) := by
  refine .enter (.bind (yields_whileStarts yields_declaration fun items hitems => .test fun begins => ?_))
  extract_lets rest
  have hrest : ∀ statements : Node, statements.type = .empty ∨ statements.type = .statementSequence →
      (rest statements).Yields (·.type ∈ [.block]) := by
    refine fun statements hstatements => .bind (yields_expect.mpr (.bind ?_))
    refine yields_list rfl (fun n hn => .inr ?_) fun declarations hdeclarations => ?_
    · obtain ⟨ns, hns, hn⟩ := List.mem_flatten.mp hn
      exact hitems ns hns n hn
    · exact yields_branch rfl (by simp [hdeclarations, hstatements]) (by simp)
  split
  · exact .skip (.statements hrest)
  · exact hrest _ (.inl rfl)

/-- The body of every rule yields what the rule is said to. -/
theorem yields_body (ctx : Context) (rule : Rule) : (rule.body ctx).Yields (·.type ∈ rule.types) := by
  cases rule with
  | expression => exact yields_expression
  | typeExpression => exact yields_typeExpression
  | variantFields => exact yields_variantFields
  | statementSequence => exact yields_statementSequence
  | block => exact yields_block

/-! ## Modules -/

/-- A definition module can be built of its parts. -/
theorem yields_definitionModule : (definitionModule ctx).Yields fun _ => True := by
  refine .enter (.bind (yields_expect.mpr (.bind (yields_expect.mpr (.expectIdent fun ident => .bind ?_)))))
  refine yields_endHeading (.bind (yields_imports fun imports himports => .bind ?_))
  refine yields_whileStarts yields_definition fun items hitems => .bind (yields_expect.mpr (.test fun named => ?_))
  extract_lets rest
  have hrest : (rest ()).Yields fun _ => True := by
    refine .bind (yields_terminal rfl fun name hname => .bind ?_)
    refine yields_list rfl (fun n hn => .inr ?_) fun definitions hdefinitions => ?_
    · obtain ⟨ns, hns, hn⟩ := List.mem_flatten.mp hn
      exact hitems ns hns n hn
    · exact yields_branch rfl (by simp [hname, himports, hdefinitions]) fun _ _ => trivial
  split
  · exact .expectIdent fun closing => .bind (yields_checkClosing (.bind (yields_expect.mpr hrest)))
  · exact hrest

/-- A program module and an implementation module have slots for the same parts. -/
theorem yields_programModule {type : NodeType}
    (hshape : type.shape = .branch
      [NodeType.identSlot, NodeType.optionalExpressionSlot, .optional [.importList], .required [.block]]) :
    (programModule ctx type).Yields fun _ => True := by
  refine .enter (.bind (yields_expect.mpr (.expectIdent fun ident => .bind ?_)))
  refine yields_optionalPriority fun priority hpriority => .bind (yields_endHeading (.bind ?_))
  refine yields_imports fun imports himports => .block fun block hblock => .expectIdent fun closing => .bind ?_
  refine yields_checkClosing (.bind (yields_expect.mpr (.bind (yields_terminal rfl fun name hname => ?_))))
  exact yields_branch hshape (by simp [hname, hpriority, himports, hblock]) fun _ _ => trivial

/-- No unit builds a node that does not fit the schema, but for the loss that is foreseen. -/
theorem yields_unit (ctx : Context) (kind : UnitKind) : (unit ctx kind).Yields fun _ => True := by
  have hend : ∀ module : Node, (expectEnd >>= fun _ => Pure.pure module).Yields fun _ => True := by
    simp [expectEnd]
  cases kind with
  | definition => exact .bind (yields_definitionModule.mono fun module _ => hend module)
  | implementation =>
    unfold unit implementationUnit
    extract_lets implementation program headings finish rest
    have hrest : (rest ()).Yields fun _ => True := by
      refine .lookahead fun t => ?_
      split
      · have himplementation : (implementationModule ctx).Yields fun _ => True := .enter (.skip (yields_programModule rfl))
        exact .bind (himplementation.mono fun module _ => hend module)
      · split
        · exact .bind ((yields_programModule rfl).mono fun module _ => hend module)
        · exact hend _
    refine .lookahead fun t => ?_
    split
    · exact hrest
    · trivial

end Modula.Script
