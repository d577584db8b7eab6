import Modula.Proofs.Parser.ExpressionRows

/-!
# Types and the grammar

The scripts for types and formal parameters parse the rows of their productions. Those for records without variants do
so only where there are none with variants, and the other way round.
-/

set_option autoImplicit false

namespace Modula.Script.Parses

variable {g : Grammar} {x : String} {known : List Symbol → Prop}

/-! ## Subranges, enumerations, sets and arrays -/

/-- A range reads its two bounds. -/
theorem range : Parses g x known (Script.range g.context) [.call .range] fun _ => True := by
  refine production (decides_rules g .range rfl nofun) fun y => enter (expect (by simp) ?_)
  refine part (call fun _ _ => trivial) fun _ _ => expect (by simp) ?_
  exact part (call fun _ _ => trivial) fun _ _ => expect (by simp) (pure trivial)

/-- So does one after the name of its base. -/
theorem subrange {base : Node} : Parses g x known (Script.subrange g.context base) [.call .range] fun _ => True := by
  refine ending range fun bounds _ => ?_
  cases bounds with
  | none => exact pure trivial
  | some bounds => exact branch (by simp)

/-- A name reads a range of it, if there is one. -/
theorem namedOrSubrange :
    Parses g x known (Script.namedOrSubrange g.context) [.call .qualident, Ebnf.opt [.call .range]] fun _ => True :=
  part qualident fun _ _ => nextIs rfl rfl subrange (pure trivial)

/-- The two alternatives of a derived type are its row. -/
theorem derivedOrSubrangeType :
    Parses g x known (Script.derivedOrSubrangeType g.context) [.call .derivedOrSubrangeType] fun _ => True := by
  refine production (decides_rules g .derivedOrSubrangeType rfl nofun) fun y => enter ?_
  exact nextIs rfl rfl namedOrSubrange subrange

/-- An enumeration reads the type that it extends and its values. -/
theorem enumType : Parses g x (Starts g .enumType) (Script.enumType g.context) [.call .enumType] fun _ => True := by
  refine production (decides_rules g .enumType rfl nofun) fun y => enter (skip (fun v => eq_of_starts rfl) (by simp) ?_)
  exact part identList fun _ _ => expect (by simp) (branch (by simp))

/-- The alternatives of a countable type are its row. -/
theorem countableType : Parses g x known (Script.countableType g.context) [.call .countableType] fun _ => True := by
  refine production (decides_rules g .countableType rfl nofun) fun y => enter (starts rfl rfl subrange ?_)
  exact starts rfl rfl enumType (demandStarts (fun _ _ => rfl) namedOrSubrange (noAlternative rfl))

/-- A set type reads its base. -/
theorem setType : Parses g x (Starts g .setType) (Script.setType g.context) [.call .setType] fun _ => True := by
  refine production (decides_rules g .setType rfl nofun) fun y => enter (skip (fun v => eq_of_starts rfl) (by simp) ?_)
  exact expect (by simp) (part countableType fun _ _ => branch (by simp))

/-- An array type reads its indices and its components. -/
theorem arrayType : Parses g x (Starts g .arrayType) (Script.arrayType g.context) [.call .arrayType] fun _ => True := by
  refine production (decides_rules g .arrayType rfl nofun) fun y => enter (skip (fun v => eq_of_starts rfl) (by simp) ?_)
  refine bind (separated (by simp) countableType countableType) fun indices _ => expect (by simp) ?_
  refine preparing (list (by simp)) fun indices _ => ?_
  exact part (call fun _ _ => trivial) fun _ _ => branch (by simp)

/-- A pointer type reads the type that it points to. -/
theorem pointerType :
    Parses g x (Starts g .pointerType) (Script.pointerType g.context) [.call .pointerType] fun _ => True := by
  refine production (decides_rules g .pointerType rfl nofun) fun y => enter (skip (fun v => eq_of_starts rfl) (by simp) ?_)
  exact expect (by simp) (part (call fun _ _ => trivial) fun _ _ => branch (by simp))

/-! ## Records -/

/-- Fields read their names and their type. -/
theorem fieldList : Parses g x known (Script.fieldList g.context) [.call .fieldList] fun _ => True := by
  refine production (decides_rules g .fieldList rfl nofun) fun y => enter (demandStarts (fun _ _ => rfl) ?_ (noAlternative rfl))
  refine part identList fun _ _ => expect (by simp) ?_
  exact part (call fun _ _ => trivial) fun _ _ => branch (by simp)

/-- Rows of fields, of which there may be none. -/
theorem fieldLists {p q : Production} {item : Script Node} {S : Node → Prop}
    (hrow : SemicolonRow g (p.ends g.context) [.call q]) (hitem : Parses g x Unknown item [.call q] S) :
    ParsesBefore g x (p.ends g.context) known (Script.fieldLists (p.ends g.context) item)
      [Ebnf.opt (Grammar.terminated [.call q])] fun _ => True :=
  .optional hrow.whole.1 hrow.whole.2 (warning rfl (pure trivial)) (parsesBefore_semicolonSeparated hrow rfl hitem hitem)

/-- Field lists have semicolons between them where records can be extended. -/
theorem fieldListSequence (hextensible : g.context.variantRecords = false) :
    Parses g x known (Script.fieldListSequence g.context) [.call .fieldListSequence] fun _ => True := by
  have hrow := semicolonRow_rules g .fieldListSequence .fieldList (by simp) fun _ => hextensible
  exact productionBefore fun y => .enter (.ending (fieldLists hrow fieldList) fun _ _ => list (by simp))

/-- There a record may read the one that it extends. -/
theorem extensibleRecordType (hextensible : g.context.variantRecords = false) :
    Parses g x (Next .kwRecord) (Script.extensibleRecordType g.context) [.call .extensibleRecordType] fun _ => True := by
  refine production (decides_rules g .extensibleRecordType rfl nofun) fun y => enter ?_
  refine skip (fun v hv => hv) (by simp) (nextIs rfl rfl (skip (fun v hv => hv) (by simp) ?_) ?_)
  · refine part qualident fun _ _ => expect (by simp) (part (fieldListSequence hextensible) fun _ _ => ?_)
    exact expect (by simp) (branch (by simp))
  · exact part (fieldListSequence hextensible) fun _ _ => expect (by simp) (branch (by simp))

/-- A label reads one expression or two. -/
theorem caseLabels : Parses g x known Script.caseLabels [.call .caseLabels] fun _ => True := by
  refine production (decides_rules g .caseLabels rfl nofun) fun y => enter (part (call fun _ _ => trivial) fun _ _ => ?_)
  refine nextIs rfl rfl (skip (fun v hv => hv) (by simp) ?_) (branch (by simp))
  exact part (call fun _ _ => trivial) fun _ _ => branch (by simp)

/-- Labels have commas between them. -/
theorem caseLabelList : Parses g x known Script.caseLabelList [.call .caseLabelList] fun _ => True := by
  refine production (decides_rules g .caseLabelList rfl nofun) fun y => enter ?_
  exact ending (separated (by simp) caseLabels caseLabels) fun _ _ => list (by simp)

section Variants

variable (hvariant : g.context.variantRecords = true)

include hvariant

/-- A field list is plain or has variants. -/
theorem variantFieldList :
    Parses g x known (Script.variantFieldList g.context) [.call .variantFieldList] fun _ => True := by
  refine production (decides_rules g .variantFieldList rfl fun _ => hvariant) fun y => enter (starts rfl rfl fieldList ?_)
  have hready : ∀ v, Starts g .variantFields v → Rule.variantFields.IsReady g v :=
    fun v hv => ⟨hvariant, eq_of_starts rfl hv⟩
  exact demandStarts (fun _ _ => rfl) (call hready) (noAlternative rfl)

/-- Such field lists have semicolons between them, too. -/
theorem variantFieldListSeq :
    Parses g x known (Script.variantFieldListSeq g.context) [.call .variantFieldListSeq] fun _ => True := by
  have hrow := semicolonRow_rules g .variantFieldListSeq .variantFieldList (by simp) nofun
  exact productionBefore fun y => .enter (.ending (fieldLists hrow (variantFieldList hvariant)) fun _ _ => pure trivial)

/-- A record reads them where it may have variants. -/
theorem variantRecordType :
    Parses g x (Next .kwRecord) (Script.variantRecordType g.context) [.call .variantRecordType] fun _ => True := by
  refine production (decides_rules g .variantRecordType rfl fun _ => hvariant) fun y => enter ?_
  refine skip (fun v hv => hv) (by simp) (part (variantFieldListSeq hvariant) fun fields _ => expect (by simp) ?_)
  split
  · exact ending (list (by simp)) fun _ _ => branch (by simp)
  · exact ending (list (by simp)) fun _ _ => branch (by simp)

/-- A variant reads its labels and its fields, or nothing. -/
theorem variant : Parses g x known (Script.variant g.context) [.call .variant] fun _ => True := by
  refine production (decides_rules g .variant rfl fun _ => hvariant) fun y => enter (part caseLabelList fun _ _ => ?_)
  refine expect (by simp) (part (variantFieldListSeq hvariant) fun _ _ => ?_)
  exact ending (list (by simp)) fun _ _ => branch (by simp)

/-- Variant fields read a tag, a type, variants with bars between them and all other cases. -/
theorem variantFields :
    Parses g x (Next .kwCase) (Script.variantFields g.context) [.call .variantFields] fun _ => True := by
  refine production (decides_rules g .variantFields rfl fun _ => hvariant) fun y => enter (skip (fun v hv => hv) (by simp) ?_)
  refine optionalNext (S := fun _ => True) rfl rfl trivial (fun tag _ => expect (by simp) ?_) fun hrest =>
    accept (fun v hv => hv) (by simp) (fun _ _ _ => trivial) fun lexeme => preparing (terminal (by simp)) hrest
  refine part qualident fun _ _ => expect (by simp) ?_
  refine bind (barred rfl ((variant hvariant).of_known fun _ _ => trivial)) fun _ _ => ?_
  refine optionalNext (S := fun _ => True) rfl rfl trivial (fun otherwise _ => ?_) fun hrest =>
    skip (fun v hv => hv) (by simp) (part (variantFieldListSeq hvariant) fun _ _ => preparing (list (by simp)) hrest)
  exact expect (by simp) (ending (list (by simp)) fun _ _ => branch (by simp))

end Variants

/-! ## Procedure types -/

/-- A formal type reads a name after the words of an open array, if they are there. -/
theorem simpleFormalType :
    Parses g x known (Script.simpleFormalType g.context) [.call .simpleFormalType] fun _ => True := by
  refine production (decides_rules g .simpleFormalType rfl nofun) fun y => enter (nextIs rfl rfl ?_ ?_)
  · refine skip (fun v hv => hv) (by simp) (expect (by simp) ?_)
    exact part qualident fun _ _ => branch (by simp)
  · exact qualident.mono fun _ _ => trivial

/-- The attribute of a formal parameter. -/
theorem passing : Parses g x (Starts g .attributedFormalType) Script.passing (Grammar.attributes g.context)
    (· ≠ .setValue) := by
  have hmem : ∀ v, Starts g .attributedFormalType v →
      firstToken v ∈ if g.context.constParameters then [Token.kwConst, .kwVar] else [.kwVar] := by
    intro v hv
    simp only [Starts, Production.first] at hv
    split <;> simp_all [or_comm]
  have hskip : Parses g x (Starts g .attributedFormalType) (Script.lookahead >>= fun t => Script.skip >>= fun _ =>
      Pure.pure (if decide (t = .kwConst) = true then NodeType.constParameter else .varParameter))
      (Grammar.attributes g.context ++ []) (· ≠ .setValue) := by
    refine lookahead fun t => skipAny (fun v hv => hmem v hv.1) (by split <;> simp) (pure ?_)
    split <;> simp
  rw [List.append_nil] at hskip
  exact ⟨hskip.sound, hskip.complete⟩

/-- An attribute reads its word before the type. -/
theorem attributedFormalType : Parses g x (Starts g .attributedFormalType) (Script.attributedFormalType g.context)
    [.call .attributedFormalType] fun _ => True := by
  refine production (decides_rules g .attributedFormalType rfl nofun) fun y => enter (bind passing fun passing hpassing => ?_)
  exact part simpleFormalType fun _ _ => branch hpassing

/-- The alternatives of a formal type are its row. -/
theorem formalType : Parses g x known (Script.formalType g.context) [.call .formalType] fun _ => True := by
  refine production (decides_rules g .formalType rfl nofun) fun y => enter (starts rfl rfl simpleFormalType ?_)
  exact demandStarts (fun _ _ => rfl) attributedFormalType (noAlternative rfl)

/-- A result is a name after a colon, or missing. -/
theorem resultType :
    Parses g x known (Script.resultType g.context) [Ebnf.opt [.token .colon, .call .qualident]] NamesType :=
  nextIs rfl rfl (skip (fun v hv => hv) (by simp) qualident) (pure (.inl rfl))

/-- A procedure type reads formal types and a result, each of which may be missing. -/
theorem procedureType :
    Parses g x (Starts g .procedureType) (Script.procedureType g.context) [.call .procedureType] fun _ => True := by
  refine production (decides_rules g .procedureType rfl nofun) fun y => enter ?_
  refine skip (fun v => eq_of_starts rfl) (by simp) ?_
  refine optionalNext (S := fun _ => True) rfl rfl trivial (fun formals _ => ?_) fun hrest => ?_
  · refine part resultType fun _ _ => ending (list (by simp)) fun _ _ => branch (by simp)
  · refine skip (fun v hv => hv) (by simp) ?_
    refine optionalStarts (S := fun _ => True) rfl rfl trivial (fun formals _ => ?_) fun hformals =>
      bind (separated (by simp) formalType formalType) hformals
    exact expect (by simp) (preparing (pure trivial) hrest)

/-! ## Types -/

/-- The alternatives of a type are its row, in which records are those of the context. -/
theorem typeExpression :
    Parses g x known (Script.typeExpression g.context) [.call .typeExpression] fun _ => True := by
  refine production (decides_rules g .typeExpression rfl nofun) fun y => enter (starts rfl rfl derivedOrSubrangeType ?_)
  refine starts rfl rfl enumType (starts rfl rfl setType (starts rfl rfl arrayType (nextIs ?_ ?_ ?_ ?_)))
  · split <;> rfl
  · split <;> rfl
  · cases hvariant : g.context.variantRecords with
    | true => exact variantRecordType hvariant
    | false => exact extensibleRecordType hvariant
  · exact starts rfl rfl pointerType (demandStarts (fun _ _ => rfl) procedureType (noAlternative rfl))

/-! ## Formal parameters -/

/-- Parameters read their names and their type. -/
theorem simpleFormalParams {passing : Option NodeType} (hpassing : ∀ t ∈ passing, t ≠ .setValue) :
    Parses g x known (Script.simpleFormalParams g.context passing) [.call .simpleFormalParams] fun _ => True := by
  refine production (decides_rules g .simpleFormalParams rfl nofun) fun y => enter (part identList fun _ _ => ?_)
  refine expect (by simp) (part simpleFormalType fun type _ => ?_)
  cases passing with
  | none => exact preparing (pure (R := fun _ => True) trivial) fun _ _ => branch (by simp)
  | some passing => exact preparing (branch (hpassing passing rfl)) fun _ _ => branch (by simp)

/-- Parameters with an attribute read its word first. -/
theorem attribFormalParams : Parses g x (Starts g .attribFormalParams)
    (Script.enter .attribFormalParams >>= fun _ => Script.passing >>= fun passing =>
      Script.simpleFormalParams g.context (some passing)) [.call .attribFormalParams] fun _ => True := by
  refine production (decides_rules g .attribFormalParams rfl nofun) fun y => enter (bind passing fun passing hpassing => ?_)
  exact simpleFormalParams (by simpa using hpassing)

/-- The alternatives of parameters are their row. -/
theorem formalParams : Parses g x known (Script.formalParams g.context) [.call .formalParams] fun _ => True := by
  refine production (decides_rules g .formalParams rfl nofun) fun y => enter (starts rfl rfl ?_ ?_)
  · exact simpleFormalParams nofun
  · exact demandStarts (fun _ _ => rfl) attribFormalParams (noAlternative rfl)

/-- Parameters have semicolons between them. -/
theorem formalParamList :
    Parses g x known (Script.formalParamList g.context) [.call .formalParamList] (HasType .formalParameterList) := by
  have hrow := semicolonRow_rules g .formalParamList .formalParams (by simp) nofun
  exact productionBefore fun y => .enter (.ending (parsesBefore_semicolonSeparated hrow rfl formalParams formalParams)
    fun _ _ => list_hasType (by simp))

/-! ## Headers of procedures -/

/-- The node of the header of a procedure says what the procedure is called. -/
def IsHeaderOf (name : String) (n : Node) : Prop := (n.subnode? 0).bind (·.value? 0) = some name

/-- A heading that can be built has the name that was read. -/
theorem headerNode {params result : Node} (hparams : HasType .formalParameterList params) (hresult : NamesType result) :
    Parses g x known (Script.branch .procedureHeader [.leaf .ident [x], params, result]) [] (IsHeaderOf x) := by
  have hbranch : NodeType.procedureHeader.isBranch = true := by decide
  have hcount : NodeType.procedureHeader.allowsCount 3 = true := by decide
  have hname : NodeType.procedureHeader.allowsAt 0 (Node.leaf .ident [x]).type = true := by
    show NodeType.procedureHeader.allowsAt 0 .ident = true
    decide
  have hsecond : NodeType.procedureHeader.allowsAt 1 params.type = true := by
    obtain htype | htype := hparams <;> rw [htype] <;> decide
  have hthird : NodeType.procedureHeader.allowsAt 2 result.type = true := by
    obtain htype | htype | htype := hresult <;> rw [htype] <;> decide
  have hbuilt : Node.ofBranch .procedureHeader [.leaf .ident [x], params, result] =
      .ok (.inner .procedureHeader [.leaf .ident [x], params, result]) := by
    simp [Node.ofBranch, Node.fault?, Node.misplaced?, hbranch, hcount, hname, hsecond, hthird]
  unfold Script.branch
  rw [hbuilt]
  exact built rfl

/-- A signature reads the name first, and keeps it in its node. -/
theorem procedureSignature : Parses g x (fun v => nameAt 0 v = x) (Script.procedureSignature g.context)
    (g.rules .procedureSignature) (IsHeaderOf x) := by
  refine enter (opening (fun s v hv => hv) (preparing (S := (· = .leaf .ident [x])) (built rfl) ?_))
  rintro name rfl
  refine nextIs rfl rfl (skip (fun v hv => hv) (by simp) ?_) (headerNode (.inl rfl) (.inl rfl))
  refine optionalStarts rfl rfl (.inl rfl) (fun params hparams => ?_) fun hrest => part formalParamList hrest
  exact expect (by simp) (part resultType fun result hresult => headerNode hparams hresult)

/-- A heading reads its word before the name. -/
theorem procedureHeader : Parses g x (fun v => firstToken v = .kwProcedure ∧ nameAt 1 v = x)
    (Script.procedureHeader g.context) (g.rules .procedureHeader) (IsHeaderOf x) := by
  exact enter (skipBefore (by simp) (named (decides_rules g .procedureSignature rfl nofun) procedureSignature))

end Modula.Script.Parses
