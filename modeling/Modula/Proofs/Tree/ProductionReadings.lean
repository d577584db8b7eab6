import Modula.Proofs.Tree.Reading

/-!
# What is read off the trees of productions

Each production takes the names that are read off its tree. Where a production starts with a word of its own, that word
has been looked at before.
-/

set_option autoImplicit false

namespace Modula.Script

open Tray
open Node (reading)

/-- A script takes the names that are read off its tree. -/
abbrev Reads (script : Script Node) : Prop := Carries Open [] script reading fun _ => Any

/-- A script that starts with a token takes the names that are read off its tree. -/
abbrev ReadsFrom (t : Token) (script : Script Node) : Prop := Carries (Next (· = t)) [] script reading fun _ => Any

namespace Carries

variable {α : Type} {ctx : Context} {known : Tray → Prop} {E : α → Tray → Prop} {acc : List String}
  {R : α → List String}

/-! ## Names -/

/-- An identifier by itself. -/
theorem ident {resume : TokenSet} : Carries Open [] (Script.expectIdent resume) Option.toList fun _ => Any :=
  last (expectIdent (fun _ hv => hv) fun _ => pure rfl fun _ _ => trivial)

/-- Nothing is asked after a report. -/
theorem noAlternative {p : Production} {R : Node → List String} {E : Node → Tray → Prop} :
    Carries known acc (Script.noAlternative ctx p) R E := fun _ _ => trivial

/-- A point and the name after it. -/
theorem qualified {next : String → Script α} {d : Script α}
    (hc : ∀ ident, Carries Open (acc ++ [ident]) (next ident) R E) (hd : Carries known acc d R E) :
    Carries known acc
      (act .qualifies >>= fun b => if b = true then Script.skip >>= fun _ => Script.accept >>= next else d) R E := by
  intro v hv b hb
  refine ensures_ite.mpr ⟨fun htrue => ?_, fun _ => hd v hv⟩
  obtain ⟨hdot, hident⟩ := hb htrue
  have haccept : Carries (fun w => w = ⟨v.ahead.tail, .dot⟩) acc (Script.accept >>= next) R E := by
    refine accept ?_ hc
    rintro w rfl
    exact ⟨by simp [Open], by rw [Next, hident]; rfl⟩
  intro lexeme _
  show (Script.accept >>= next).Ensures carrying ⟨v.ahead.tail, firstToken v.ahead⟩ _
  refine (haccept ⟨v.ahead.tail, firstToken v.ahead⟩ (by rw [hdot])).mono fun a w ha => ?_
  rw [names_of_plain (by rw [hdot]; rfl)]
  exact ha

/-- What is read of identifiers that were demanded are those that were found. -/
theorem readingAll_toList (idents : List (Option String)) : readingAll Option.toList idents = idents.filterMap id := by
  induction idents with
  | nil => rfl
  | cons ident idents ih => cases ident <;> simp [ih]

/-- A list of identifiers is read in the order of its commas. -/
theorem identList : Reads (Script.identList ctx) := by
  refine enter (bind (separated (by decide) ident) fun idents => last (terminals fun node hnode => ?_))
  exact pure (by rw [hnode, readingAll_toList]) fun _ _ => trivial

/-- A qualified identifier is read part by part, and so is one that has no further parts. -/
theorem qualident : Reads (Script.qualident ctx) := by
  refine enter (expectIdent (fun _ hv => hv) fun first => bind (S := List.reverse) (M := fun _ => Any) ?_ fun parts => ?_)
  · refine loop (S := List.reverse) (I := fun _ => Any) (by simp) (fun _ _ => trivial) fun parts => qualified (fun part => ?_) ?_
    · exact pure (by simp [round]) fun _ _ => trivial
    · exact pure rfl fun _ _ => trivial
  · split
    · exact last (terminal fun node hnode => pure (by simp [hnode]) fun _ _ => trivial)
    · exact last (terminals fun node hnode => pure hnode.symm fun _ _ => trivial)

/-! ## Calls -/

/-- A rule that is called and followed by more. -/
theorem calling {rule : Rule} {next : Node → Script α} (hknown : ∀ v, known v → rule.Expects v)
    (h : ∀ node : Node, Carries Any (acc ++ node.reading) (next node) R E) :
    Carries known acc (Script.call rule >>= next) R E :=
  part (call hknown) fun node => (h node).of_known fun _ _ => trivial

/-- A block that is followed by more. -/
theorem block {next : Node → Script α} (hknown : ∀ v, known v → Open v)
    (h : ∀ node : Node, Carries Ended (acc ++ node.reading) (next node) R E) :
    Carries known acc (Script.call .block >>= next) R E :=
  part (call hknown) fun node => (h node).of_known fun _ hv => hv rfl

/-- What a rule yields is read as what its body has taken. -/
theorem called {rule : Rule} (hknown : ∀ v, known v → rule.Expects v) :
    Carries known [] (Script.call rule) reading fun _ => Any :=
  (call hknown).mono (fun _ hv => hv) fun _ _ _ => trivial

/-! ## Optional parts -/

section

variable {β : Type} {M : Tray → Prop} {S : β → List String} {next : β → Script α} {r : β} {c : Script α}

/-- An optional part that starts with a token. The script goes on with what the part yields, or with what stands for
it. -/
theorem optionalNext {t : Token} (hr : S r = []) (hM : ∀ v, known v → M v)
    (hnext : ∀ b, Carries M (acc ++ S b) (next b) R E)
    (hc : (∀ b, Carries M (acc ++ S b) (next b) R E) → Carries (fun v => known v ∧ Next (· = t) v) acc c R E) :
    Carries known acc (Script.nextIs t >>= fun b => if b = true then c else Script.pure r >>= next) R E :=
  nextIs (hc hnext) (part (pure hr.symm hM) hnext)

/-- An optional part that starts as a production does. -/
theorem optionalStarts {p : Production} (hr : S r = []) (hM : ∀ v, known v → M v)
    (hnext : ∀ b, Carries M (acc ++ S b) (next b) R E)
    (hc : (∀ b, Carries M (acc ++ S b) (next b) R E) →
      Carries (fun v => known v ∧ Next (fun t => (p.first ctx).contains t = true) v) acc c R E) :
    Carries known acc (Script.starts ctx p >>= fun b => if b = true then c else Script.pure r >>= next) R E :=
  starts (hc hnext) (part (pure hr.symm hM) hnext)

end

/-! ## Expressions -/

/-- Expressions are read in the order of their commas. -/
theorem expressionList : Carries Open [] Script.expressionList (readingAll reading) fun _ => Any :=
  enter (separated (by decide) (called fun _ hv => hv))

/-- Parentheses have no names of their own. -/
theorem actualParameters : ReadsFrom .lparen (Script.actualParameters ctx) := by
  refine enter (skipFirst (by decide) (starts ?_ ?_))
  · refine part (expressionList.of_known fun _ hv => hv.1) fun arguments => expect (by decide) (last (list ?_))
    exact fun node hnode => pure (by simp [hnode]) fun _ _ => trivial
  · exact expect (by decide) (last (list fun node hnode => pure (by simp [hnode]) fun _ _ => trivial))

/-- Of selectors only fields and indices are read, after what they select from. -/
theorem designator : Reads (Script.designator ctx) := by
  refine enter (bind (E := fun _ => Any) qualident fun first => ?_)
  refine loop (I := fun _ => Any) rfl (fun _ _ => trivial) fun selected => lookahead fun t => ?_
  split
  · refine skipNext (by decide) (branch fun node hnode => pure ?_ fun _ _ => trivial)
    simp [round, hnode]
  · refine skipNext (by decide) (expectIdent (fun _ hv => hv) fun ident => terminal fun field hfield => ?_)
    exact branch fun node hnode => pure (by simp [round, hnode, hfield]) fun _ _ => trivial
  · refine skipNext (by decide) (part expressionList fun indices => expect (by decide) (list fun arguments harguments => ?_))
    exact branch fun node hnode => pure (by simp [round, hnode, harguments]) fun _ _ => trivial
  · exact pure rfl fun _ _ => trivial

/-- The bounds of a range are read in their order. -/
theorem element : Reads Script.element := by
  refine enter (calling (fun _ hv => hv) fun low => nextIs ?_ (pure rfl fun _ _ => trivial))
  exact skipNext (by decide) (calling (fun _ hv => hv) fun high => branched (by simp))

/-- The elements of a set are read in the order of their commas. -/
theorem setValue : ReadsFrom .lbrace (Script.setValue ctx) := by
  refine enter (skipFirst (by decide) (starts ?_ ?_))
  · have helements : Carries Open [] (Script.separated .comma Script.element) (readingAll reading) fun _ => Any :=
      separated (by decide) element
    refine part (helements.of_known fun _ hv => hv.1) fun elements => expect (by decide) (last (list ?_))
    exact fun node hnode => pure (by simp [hnode]) fun _ _ => trivial
  · exact expect (by decide) (last (list fun node hnode => pure (by simp [hnode]) fun _ _ => trivial))

/-- A set is read after its type although its node has them the other way round; so are arguments after what is called.
-/
theorem designatorOrFuncCall : Reads (Script.designatorOrFuncCall ctx) := by
  refine enter (part designator fun head => startsWith (t := .lbrace) (by simp [Production.first]) ?_ ?_)
  · refine part (setValue.of_known fun _ hv => hv.2) fun elements => branched ?_
    simp [NodeType.inTextOrder]
  · refine startsWith (t := .lparen) (by simp [Production.first]) ?_ (pure (by simp) fun _ _ => trivial)
    exact part (actualParameters.of_known fun _ hv => hv.2) fun arguments => branched (by simp)

/-- A literal is read as its value. -/
theorem factor : Reads (Script.factor ctx) := by
  refine enter (lookahead fun t => ?_)
  split
  · next literal hliteral =>
    have hnaming : t.isNaming = true := by
      unfold literal? at hliteral
      split at hliteral <;> first | rfl | cases hliteral
    refine accept (fun v hv => ⟨hv.1, by rw [Next, hv.2]; exact hnaming⟩) fun lexeme => last (terminal ?_)
    exact fun node hnode => pure (by simp [hnode]) fun _ _ => trivial
  · refine startsWith (t := .lbrace) (by simp [Production.first]) ?_ (starts ?_ (nextIs ?_ noAlternative))
    · refine part (setValue.of_known fun _ hv => hv.2) fun elements => branched ?_
      simp [NodeType.inTextOrder]
    · exact designatorOrFuncCall.of_known fun _ hv => hv.1.1
    · refine skipNext (by decide) (calling (fun _ hv => hv) fun inner => expect (by decide) ?_)
      exact pure (by simp) fun _ _ => trivial

/-- A negation is read as what is negated. -/
theorem simpleTerm : Reads (Script.simpleTerm ctx) := by
  refine enter (nextIs ?_ factor)
  exact skipNext (by decide) (part factor fun operand => branched (by simp))

/-- Operands with operators between them. -/
theorem leftAssociative {operator? : Token → Option NodeType} {operand : Script Node} {first : Node}
    (hoperator : ∀ t operator, operator? t = some operator → Plain t ∧ operator ≠ .setValue) (hoperand : Reads operand) :
    Carries known first.reading (Script.leftAssociative operator? operand first) reading fun _ => Any := by
  refine loop (I := fun _ => Any) rfl (fun _ _ => trivial) fun left => lookahead fun t => ?_
  split
  · exact pure rfl fun _ _ => trivial
  · next operator hsome =>
    obtain ⟨hplain, hne⟩ := hoperator t operator hsome
    refine skipNext hplain (part hoperand fun right => branch fun node hnode => pure ?_ fun _ _ => trivial)
    simp [round, hnode, hne]

/-- Factors are read in their order, whatever operators join them. -/
theorem term : Reads (Script.term ctx) := by
  refine enter (bind simpleTerm fun first => leftAssociative ?_ simpleTerm)
  intro t operator hsome
  unfold multiplying? at hsome
  split at hsome <;> cases hsome <;> decide

/-- A sign is not read. -/
theorem signedTerm : Reads (Script.signedTerm ctx) := by
  refine lookahead fun t => ?_
  split
  · exact skipNext (by decide) term
  · exact skipNext (by decide) (part term fun operand => branched (by simp))
  · exact term.of_known fun _ hv => hv.1

/-- Terms are read in their order, whatever operators join them. -/
theorem simpleExpression : Reads (Script.simpleExpression ctx) := by
  refine enter (bind signedTerm fun first => leftAssociative ?_ term)
  intro t operator hsome
  unfold adding? at hsome
  split at hsome <;> cases hsome <;> decide

/-- The two sides of a relation are read in their order. -/
theorem expression : Reads (Script.expression ctx) := by
  refine enter (part simpleExpression fun left => lookahead fun t => ?_)
  split
  · exact pure rfl fun _ _ => trivial
  · next operator hsome =>
    obtain ⟨hplain, hne⟩ : Plain t ∧ operator ≠ .setValue := by
      unfold relation? at hsome
      split at hsome <;> cases hsome <;> decide
    exact skipNext hplain (part simpleExpression fun right => branched (by simp [hne]))

/-! ## Types -/

/-- Both bounds are read, if the range is complete. -/
theorem range : Carries Any [] (Script.range ctx)
    (fun bounds => bounds.elim [] fun (low, high) => low.reading ++ high.reading) fun bounds _ => bounds.isSome := by
  refine enter (expect (by decide) (calling (fun _ hv => hv) fun low => expect (by decide) ?_))
  exact calling (fun _ hv => hv) fun high => expect (by decide) (pure (by simp) fun _ _ => rfl)

/-- The base type of a subrange stands before its bounds. -/
theorem subrange {base : Node} : Carries Any base.reading (Script.subrange ctx base) reading fun _ => Any := by
  refine part range fun bounds => ?_
  cases bounds with
  | none => exact fun _ hv => by cases hv
  | some bounds => exact branched (by simp [NodeType.inTextOrder])

/-- The name of a base is read before the bounds although it comes last in the node. -/
theorem namedOrSubrange : Reads (Script.namedOrSubrange ctx) := by
  refine bind qualident fun base => nextIs ?_ (pure rfl fun _ _ => trivial)
  exact subrange.of_known fun _ _ => trivial

/-- A range without a base is read as its bounds. -/
theorem unnamedSubrange : Carries known [] (Script.subrange ctx .empty) reading fun _ => Any := by
  have hsubrange : Carries Any (reading .empty) (Script.subrange ctx .empty) reading fun _ => Any := subrange
  rw [Node.reading_empty] at hsubrange
  exact hsubrange.of_known fun _ _ => trivial

/-- A derived type is read as its name, and a range as has been said. -/
theorem derivedOrSubrangeType : Reads (Script.derivedOrSubrangeType ctx) :=
  enter (nextIs (namedOrSubrange.of_known fun _ hv => hv.1) unnamedSubrange)

/-- The type that is extended is read before the values. -/
theorem enumType : ReadsFrom .lparen (Script.enumType ctx) := by
  refine enter (skipFirst (by decide) (part identList fun values => expect (by decide) ?_))
  exact branched (by simp)

/-- A countable type is read as the alternative that was taken. -/
theorem countableType : Reads (Script.countableType ctx) := by
  refine enter (starts unnamedSubrange (startsWith (t := .lparen) (by simp [Production.first]) ?_ ?_))
  · exact enumType.of_known fun _ hv => hv.2
  · exact starts (namedOrSubrange.of_known fun _ hv => hv.1) noAlternative

/-- A set type is read as its base. -/
theorem setType : ReadsFrom .kwSet (Script.setType ctx) := by
  refine enter (skipFirst (by decide) (expect (by decide) (part countableType fun base => ?_)))
  exact branched (by simp)

/-- Indices are read before the type of the components. -/
theorem arrayType : ReadsFrom .kwArray (Script.arrayType ctx) := by
  refine enter (skipFirst (by decide) (part (separated (by decide) countableType) fun indices => ?_))
  refine expect (by decide) (list fun list hlist => calling (fun _ hv => hv) fun element => branched ?_)
  simp [hlist]

/-- Fields are read before their type. -/
theorem fieldList : Reads (Script.fieldList ctx) := by
  refine enter (starts ?_ noAlternative)
  refine part (identList.of_known fun _ hv => hv.1) fun idents => expect (by decide) ?_
  exact calling (fun _ hv => hv) fun type => branched (by simp)

/-- Field lists are read in the order of their semicolons. -/
theorem fieldLists {follow : TokenSet} {item : Script Node} (hitem : Reads item) :
    Carries Open [] (Script.fieldLists follow item) (readingAll reading) fun _ => Any := by
  refine lookahead fun t => ite (fun _ => ?_) fun _ => ?_
  · exact warnNext (pure rfl fun _ _ => trivial)
  · exact (semicolonSeparated hitem).of_known fun _ hv => hv.1

/-- The fields of a record are read in the order of their lists. -/
theorem fieldListSequence : Reads (Script.fieldListSequence ctx) := by
  refine enter (part (fieldLists fieldList) fun fields => last (list fun node hnode => ?_))
  exact pure (by simp [hnode]) fun _ _ => trivial

/-- The type that is extended is read before the fields. -/
theorem extensibleRecordType : ReadsFrom .kwRecord (Script.extensibleRecordType ctx) := by
  refine enter (skipFirst (by decide) (nextIs ?_ ?_))
  · refine skipNext (by decide) (part qualident fun base => expect (by decide) (part fieldListSequence fun fields => ?_))
    exact ending (branched (by simp))
  · exact part fieldListSequence fun fields => ending (branched (by simp))

/-- Variant fields are read as what the rule yields. -/
theorem variantFieldList : Reads (Script.variantFieldList ctx) := by
  refine enter (starts (fieldList.of_known fun _ hv => hv.1) (startsWith (t := .kwCase) (by simp [Production.first]) ?_ ?_))
  · exact called fun _ hv => hv
  · exact noAlternative

/-- Field lists with variants are read in the order of their semicolons. -/
theorem variantFieldListSeq : Carries Open [] (Script.variantFieldListSeq ctx) (readingAll reading) fun _ => Any := by
  refine enter (part (fieldLists variantFieldList) fun fields => pure ?_ fun _ _ => trivial)
  rw [readingAll_filter, List.nil_append]

/-- A variant record is read as its field lists. -/
theorem variantRecordType : ReadsFrom .kwRecord (Script.variantRecordType ctx) := by
  refine enter (skipFirst (by decide) (part variantFieldListSeq fun fields => ending (ite ?_ ?_)))
  · exact fun _ => list fun list hlist => branched (by simp [hlist])
  · exact fun _ => list fun list hlist => branched (by simp [hlist])

/-- The bounds of a label are read in their order. -/
theorem caseLabels : Reads Script.caseLabels := by
  refine enter (calling (fun _ hv => hv) fun low => nextIs ?_ (branched (by simp)))
  exact skipNext (by decide) (calling (fun _ hv => hv) fun high => branched (by simp))

/-- Labels are read in the order of their commas. -/
theorem caseLabelList : Reads Script.caseLabelList := by
  refine enter (part (separated (by decide) caseLabels) fun labels => last (list fun node hnode => ?_))
  exact pure (by simp [hnode]) fun _ _ => trivial

/-- Labels are read before the fields of their variant. -/
theorem variant : Reads (Script.variant ctx) := by
  refine enter (part caseLabelList fun labels => expect (by decide) (part variantFieldListSeq fun fields => ?_))
  exact list fun list hlist => branched (by simp [hlist])

/-- The tag is read first, then its type, the variants, and the fields for all other cases. -/
theorem variantFields : ReadsFrom .kwCase (Script.variantFields ctx) := by
  have hvariants : Carries Open [] (Script.barred ctx .variant (Script.variant ctx)) (readingAll reading) fun _ => Any :=
    barred (variant.of_known fun _ hv => hv.1)
  refine enter (skipFirst (by decide) (optionalNext (M := Any) Node.reading_empty (fun _ _ => trivial) (fun tag => ?_) ?_))
  · refine expect (by decide) (part qualident fun tagType => expect (by decide) (part hvariants fun variants => ?_))
    refine optionalNext (M := Any) Node.reading_empty (fun _ _ => trivial) (fun otherwise => ?_) fun hrest => ?_
    · exact ending (list fun list hlist => branched (by simp [hlist]))
    · refine skipNext (by decide) (part variantFieldListSeq fun fields => list fun otherwise hotherwise => ?_)
      rw [← hotherwise]
      exact hrest otherwise
  · intro hrest
    refine accept (fun v hv => ⟨hv.1, by rw [Next, hv.2]; rfl⟩) fun lexeme => terminal fun tag htag => ?_
    rw [← htag]
    exact (hrest tag).of_known fun _ _ => trivial

/-- A pointer type is read as the type that it points to. -/
theorem pointerType : ReadsFrom .kwPointer (Script.pointerType ctx) := by
  refine enter (skipFirst (by decide) (expect (by decide) (calling (fun _ hv => hv) fun target => ?_)))
  exact branched (by simp)

/-- An open array is read as the type of its components. -/
theorem simpleFormalType : Reads (Script.simpleFormalType ctx) := by
  refine enter (nextIs ?_ qualident)
  exact skipNext (by decide) (expect (by decide) (part qualident fun element => branched (by simp)))

/-- The token of an attribute. -/
def Attribute (v : Tray) : Prop := Next (· = .kwConst) v ∨ Next (· = .kwVar) v

/-- What starts an attributed type or parameter is the word of an attribute. -/
theorem attribute_of_first {v : Tray} {p : Production} (hp : p = .attributedFormalType ∨ p = .attribFormalParams)
    (h : Next (fun t => (p.first ctx).contains t = true) v) : Attribute v := by
  have hsame : p.first ctx = if ctx.constParameters then {.kwConst, .kwVar} else {.kwVar} := by
    obtain rfl | rfl := hp <;> rfl
  have hfirst : (p.first ctx).contains (firstToken v.ahead) = true := h
  rw [hsame] at hfirst
  split at hfirst
  · simpa [Attribute, Next, or_comm] using hfirst
  · exact .inr (by simpa [Next] using hfirst)

/-- The word of an attribute is not read. -/
theorem passing : Carries Attribute [] Script.passing (fun _ => []) fun _ => Open := by
  have hplain : ∀ v, Attribute v → Next Plain v := by
    rintro v (hconst | hvar)
    · rw [Next, hconst]; decide
    · rw [Next, hvar]; decide
  exact test fun isConst => skip hplain (pure rfl fun _ hv => hv)

/-- An attributed type is read as the type. -/
theorem attributedFormalType : Carries Attribute [] (Script.attributedFormalType ctx) reading fun _ => Any :=
  enter (part passing fun passing => part simpleFormalType fun type => branched (by simp))

/-- So is a formal type, with an attribute or without. -/
theorem formalType : Reads (Script.formalType ctx) := by
  refine enter (starts (simpleFormalType.of_known fun _ hv => hv.1) (starts ?_ noAlternative))
  exact attributedFormalType.of_known fun v hv => attribute_of_first (.inl rfl) hv.2

/-- A result is read as its type; without one nothing is read. -/
theorem resultType : Carries known [] (Script.resultType ctx) reading fun _ => Any := by
  refine nextIs (skipNext (by decide) qualident) (pure Node.reading_empty.symm fun _ _ => trivial)

/-- Formal types are read before the result. -/
theorem procedureType : ReadsFrom .kwProcedure (Script.procedureType ctx) := by
  have hformals : Carries Open [] (Script.separated .comma (Script.formalType ctx)) (readingAll reading) fun _ => Any :=
    separated (by decide) formalType
  refine enter (skipFirst (by decide) (optionalNext (S := readingAll reading) (M := Any) rfl (fun _ _ => trivial) ?_ ?_))
  · exact fun formals => part resultType fun result => list fun list hlist => branched (by simp [hlist])
  · refine fun hrest => skipNext (by decide) ?_
    refine optionalStarts (S := readingAll reading) (M := Any) rfl (fun _ _ => trivial) (fun formals => ?_) fun hclose => ?_
    · exact expect (by decide) ((hrest formals).of_known fun _ _ => trivial)
    · exact part (hformals.of_known fun _ hv => hv.1) hclose

/-- A type is read as the alternative that its first token tells. -/
theorem typeExpression : Reads (Script.typeExpression ctx) := by
  refine enter (starts (derivedOrSubrangeType.of_known fun _ hv => hv.1) ?_)
  refine startsWith (t := .lparen) (by simp [Production.first]) (enumType.of_known fun _ hv => hv.2) ?_
  refine startsWith (t := .kwSet) (by simp [Production.first]) (setType.of_known fun _ hv => hv.2) ?_
  refine startsWith (t := .kwArray) (by simp [Production.first]) (arrayType.of_known fun _ hv => hv.2) (nextIs (ite ?_ ?_) ?_)
  · exact fun _ => variantRecordType.of_known fun _ hv => hv.2
  · exact fun _ => extensibleRecordType.of_known fun _ hv => hv.2
  · refine startsWith (t := .kwPointer) (by simp [Production.first]) (pointerType.of_known fun _ hv => hv.2) ?_
    exact startsWith (t := .kwProcedure) (by simp [Production.first]) (procedureType.of_known fun _ hv => hv.2) noAlternative

/-! ## Headers of procedures -/

/-- Parameters are read before their type. -/
theorem simpleFormalParams {passing : Option NodeType} : Reads (Script.simpleFormalParams ctx passing) := by
  refine enter (part identList fun idents => expect (by decide) (part simpleFormalType fun type => ?_))
  split
  · exact branch fun attributed hattributed => branched (by simp [hattributed])
  · exact branched (by simp)

/-- So they are after an attribute, which is not read. -/
theorem formalParams : Reads (Script.formalParams ctx) := by
  refine enter (starts (simpleFormalParams.of_known fun _ hv => hv.1) (starts (enter ?_) noAlternative))
  refine part (passing.of_known fun v hv => ?_) fun passing => simpleFormalParams
  exact attribute_of_first (.inr rfl) hv.2

/-- Parameters are read in the order of their semicolons. -/
theorem formalParamList : Reads (Script.formalParamList ctx) := by
  refine enter (part (semicolonSeparated formalParams) fun params => last (list fun node hnode => ?_))
  exact pure (by simp [hnode]) fun _ _ => trivial

/-- The name of a procedure is read first, then its parameters and its result. -/
theorem procedureSignature : Reads (Script.procedureSignature ctx) := by
  refine enter (expectIdent (fun _ hv => hv) fun ident => terminal fun name hname => nextIs ?_ ?_)
  · refine skipNext (by decide) (optionalStarts (M := Any) Node.reading_empty (fun _ _ => trivial) (fun params => ?_) ?_)
    · exact expect (by decide) (part resultType fun result => branched (by simp [hname]))
    · exact fun hrest => part (formalParamList.of_known fun _ hv => hv.1) hrest
  · exact branched (by simp [hname])

/-- A heading is read as the signature after its word. -/
theorem procedureHeader : ReadsFrom .kwProcedure (Script.procedureHeader ctx) :=
  enter (skipFirst (by decide) procedureSignature)

/-! ## Statements -/

/-- The designator is read before what is assigned to it or passed to it. -/
theorem assignmentOrProcCall : Reads (Script.assignmentOrProcCall ctx) := by
  refine enter (part designator fun target => nextIs ?_ ?_)
  · exact skipNext (by decide) (calling (fun _ hv => hv) fun value => branched (by simp))
  · refine optionalStarts (M := Any) Node.reading_empty (fun _ _ => trivial) (fun arguments => branched (by simp)) ?_
    exact fun hrest => part (actualParameters.of_known fun v hv => by simpa [Next, Production.first] using hv.2) hrest

/-- What is returned is read, if there is anything. -/
theorem returnStatement : ReadsFrom .kwReturn (Script.returnStatement ctx) := by
  refine enter (skipFirst (by decide) (optionalStarts (M := Any) Node.reading_empty (fun _ _ => trivial) ?_ ?_))
  · exact fun value => branched (by simp)
  · exact fun hrest => calling (fun _ hv => hv.1) hrest

/-- The designator is read before the statements. -/
theorem withStatement : ReadsFrom .kwWith (Script.withStatement ctx) := by
  refine enter (skipFirst (by decide) (part designator fun record => expect (by decide) ?_))
  exact calling (fun _ hv => hv) fun body => ending (branched (by simp))

/-- The statements for all other cases are read, if there are any. -/
theorem elsePart : Carries known [] Script.elsePart reading fun _ => Any := by
  refine nextIs (skipNext (by decide) (called fun _ hv => hv)) (pure Node.reading_empty.symm fun _ _ => trivial)

/-- The alternatives of an if statement, of which there is a list unless a `THEN` is missing. -/
theorem elsifs {follow : TokenSet} : Carries known [] (Script.elsifs follow)
    (fun branches => readingAll reading (branches.getD [])) fun branches _ => branches.isSome := by
  let S : Option (List Node) → List String := fun branches => readingAll reading (branches.getD []).reverse
  refine bind (S := S) (M := fun branches _ => branches.isSome) ?_ fun branches => ?_
  · refine loop (S := S) (I := fun branches _ => branches.isSome) rfl (fun _ _ => rfl) fun branches => ?_
    cases branches with
    | none => exact fun _ hv => by cases hv
    | some branches =>
      refine nextIs (skipNext (by decide) (calling (fun _ hv => hv) fun condition => expect (by decide) ?_)) ?_
      · refine calling (fun _ hv => hv) fun body => branch fun node hnode => pure ?_ fun _ _ => rfl
        simp [round, S, hnode]
      · exact pure rfl fun _ hv => hv
  · cases branches with
    | none => exact fun _ hv => by cases hv
    | some branches => exact pure rfl fun _ _ => rfl

/-- Conditions and statements are read in turn. -/
theorem ifStatement : ReadsFrom .kwIf (Script.ifStatement ctx) := by
  refine enter (skipFirst (by decide) (calling (fun _ hv => hv) fun condition => expect (by decide) ?_))
  refine calling (fun _ hv => hv) fun body => part elsifs fun alternatives => ?_
  cases alternatives with
  | none => exact fun _ hv => by cases hv
  | some alternatives =>
    refine part elsePart fun otherwise => ending (list fun alternatives halternatives => branched ?_)
    simp [halternatives]

/-- Labels are read before their statements. -/
theorem caseBranch : Reads (Script.caseBranch ctx) := by
  refine enter (part caseLabelList fun labels => expect (by decide) (calling (fun _ hv => hv) fun body => ?_))
  exact branched (by simp)

/-- What is decided by is read before the cases. -/
theorem caseStatement : ReadsFrom .kwCase (Script.caseStatement ctx) := by
  have hcases : Carries Open [] (Script.barred ctx .caseBranch (Script.caseBranch ctx)) (readingAll reading) fun _ => Any :=
    barred (caseBranch.of_known fun _ hv => hv.1)
  refine enter (skipFirst (by decide) (calling (fun _ hv => hv) fun selector => expect (by decide) ?_))
  refine part hcases fun cases => part elsePart fun otherwise => ending (list fun cases hcases => branched ?_)
  simp [hcases]

/-- A loop is read as its statements. -/
theorem loopStatement : ReadsFrom .kwLoop (Script.loopStatement ctx) :=
  enter (skipFirst (by decide) (calling (fun _ hv => hv) fun body => ending (branched (by simp))))

/-- The condition is read before the statements. -/
theorem whileStatement : ReadsFrom .kwWhile (Script.whileStatement ctx) := by
  refine enter (skipFirst (by decide) (calling (fun _ hv => hv) fun condition => expect (by decide) ?_))
  exact calling (fun _ hv => hv) fun body => ending (branched (by simp))

/-- The condition is read after the statements. -/
theorem repeatStatement : ReadsFrom .kwRepeat (Script.repeatStatement ctx) := by
  refine enter (skipFirst (by decide) (calling (fun _ hv => hv) fun body => expect (by decide) ?_))
  exact calling (fun _ hv => hv) fun condition => branched (by simp)

/-- The variable is read first, then the bounds, the step and the statements. -/
theorem forStatement : ReadsFrom .kwFor (Script.forStatement ctx) := by
  refine enter (skipFirst (by decide) (expectIdent (fun _ hv => hv) fun control => expect (by decide) ?_))
  refine calling (fun _ hv => hv) fun first => expect (by decide) (calling (fun _ hv => hv) fun last => ?_)
  refine optionalNext (M := Any) Node.reading_empty (fun _ _ => trivial) (fun step => expect (by decide) ?_) fun hrest => ?_
  · refine calling (fun _ hv => hv) fun body => ending (terminal fun name hname => branched ?_)
    simp [hname]
  · exact skipNext (by decide) (calling (fun _ hv => hv) hrest)

/-- A statement is read as the alternative that its first token tells. -/
theorem statement : Reads (Script.statement ctx) := by
  refine enter (lookahead fun t => ?_)
  split
  · exact assignmentOrProcCall.of_known fun _ hv => hv.1
  · exact returnStatement.of_known fun _ hv => hv.2
  · exact withStatement.of_known fun _ hv => hv.2
  · exact ifStatement.of_known fun _ hv => hv.2
  · exact caseStatement.of_known fun _ hv => hv.2
  · exact loopStatement.of_known fun _ hv => hv.2
  · exact whileStatement.of_known fun _ hv => hv.2
  · exact repeatStatement.of_known fun _ hv => hv.2
  · exact forStatement.of_known fun _ hv => hv.2
  · exact skipNext (by decide) (branched (by simp [NodeType.inTextOrder]))
  · exact noAlternative

/-- Statements are read in the order of their semicolons, with nothing for a semicolon too many. -/
theorem statementSequence : Reads (Script.statementSequence ctx) := by
  refine enter (lookahead fun t => ite (fun _ => ?_) fun _ => ?_)
  · exact warnNext (pure Node.reading_empty.symm fun _ _ => trivial)
  refine part (statement.of_known fun _ hv => hv.1) fun first => ?_
  let S : List Node → List String := fun statements => readingAll reading statements.reverse
  refine bind (S := S) (M := fun _ => Any) ?_ fun statements => last (list fun node hnode => ?_)
  · refine loop (S := S) (I := fun _ => Any) (by simp [S]) (fun _ _ => trivial) fun statements => lookahead fun t => ?_
    refine ite (fun hsemicolon => ?_) fun _ => ite (fun _ => fun _ _ => trivial) fun _ => pure rfl fun _ _ => trivial
    subst hsemicolon
    refine skipNext (by decide) (lookahead fun t => ite (fun _ => warnAccepted ?_) fun _ => ?_)
    · exact pure rfl fun _ _ => trivial
    · exact part (statement.of_known fun _ hv => hv.1) fun node => pure (by simp [round, S]) fun _ _ => trivial
  · exact pure hnode.symm fun _ _ => trivial

/-! ## Declarations -/

/-- Items under a reserved word, each with a semicolon after it. -/
theorem itemSection {p : Production} {t : Token} {item : Script Node} {follow : TokenSet} (ht : Plain t)
    (hitem : Reads item) :
    Carries (Next (· = t)) [] (Script.itemSection ctx p item follow) (readingAll reading) fun _ => Open := by
  refine skipFirst ht (whileStarts (part (hitem.of_known fun _ hv => hv.1) fun node => ?_))
  exact expectAnyway (by decide) (pure rfl fun _ hv => hv)

/-- A single item with a semicolon after it. -/
theorem closed {item : Script Node} {follow : TokenSet} (hitem : Carries known [] item reading fun _ => Any) :
    Carries known [] (Script.closed item follow) (readingAll reading) fun _ => Open :=
  part hitem fun node => expectAnyway (by decide) (pure (by simp) fun _ hv => hv)

/-- The name of a constant is read before its value. -/
theorem constDefinition : Reads (Script.constDefinition ctx) := by
  refine enter (expectIdent (fun _ hv => hv) fun ident => expect (by decide) (terminal fun name hname => ?_))
  exact calling (fun _ hv => hv) fun value => branched (by simp [hname])

/-- The name of a type is read first, and alone if the type is hidden. -/
theorem typeDefinition : Reads (Script.typeDefinition ctx) := by
  refine enter (expectIdent (fun _ hv => hv) fun ident => terminal fun name hname => ?_)
  refine optionalNext (M := Any) Node.reading_empty (fun _ _ => trivial) (fun type => branched (by simp [hname])) ?_
  exact fun hrest => skipNext (by decide) (calling (fun _ hv => hv) hrest)

/-- Variables are read before their type. -/
theorem variableDeclaration : Reads (Script.variableDeclaration ctx) := by
  refine enter (part identList fun idents => expect (by decide) (calling (fun _ hv => hv) fun type => ?_))
  exact branched (by simp)

/-- Definitions are read section by section. -/
theorem definition : Carries Open [] (Script.definition ctx) (readingAll reading) fun _ => Open := by
  refine enter (lookahead fun t => ?_)
  split
  · exact (itemSection (by decide) constDefinition).of_known fun _ hv => hv.2
  · exact (itemSection (by decide) typeDefinition).of_known fun _ hv => hv.2
  · exact (itemSection (by decide) variableDeclaration).of_known fun _ hv => hv.2
  · exact (closed procedureHeader).of_known fun _ hv => hv.2
  · exact fun _ _ => trivial

/-- The fields of a record of variable size are read before the one that varies. -/
theorem varSizeRecordType : ReadsFrom .kwVar (Script.varSizeRecordType ctx) := by
  refine enter (skipFirst (by decide) (expect (by decide) (part fieldListSequence fun fields => expect (by decide) ?_)))
  refine expectIdent (fun _ hv => hv) fun field => expect (by decide) (expect (by decide) ?_)
  refine expectIdent (fun _ hv => hv) fun size => expect (by decide) (part qualident fun element => ending ?_)
  refine terminal fun field hfield => terminal fun size hsize => branch fun last hlast => branched ?_
  simp [hfield, hsize, hlast]

/-- Where a tail is no type, it starts with the word of a record of variable size. -/
theorem typeDeclarationTail : Reads (Script.typeDeclarationTail ctx) := by
  refine enter (startsOr (called fun _ hv => hv.1) (starts (varSizeRecordType.of_known fun v hv => ?_) noAlternative))
  have htail : (Production.typeDeclarationTail.first ctx).contains (firstToken v.ahead) = true := hv.2
  have hnoType : (Production.typeExpression.first ctx).contains (firstToken v.ahead) = false := hv.1.2
  simp only [Production.first] at htail hnoType
  show firstToken v.ahead = .kwVar
  split at htail
  · rw [htail] at hnoType
    cases hnoType
  · simp only [TokenSet.contains_setInsert, TokenSet.contains_singleton] at htail hnoType
    grind

/-- The name of a type is read before the type. -/
theorem typeDeclaration : Reads (Script.typeDeclaration ctx) := by
  refine enter (expectIdent (fun _ hv => hv) fun ident => expect (by decide) (terminal fun name hname => ?_))
  exact part typeDeclarationTail fun tail => branched (by simp [hname])

/-- A name that is repeated at the end, where it brings nothing new. -/
theorem checkClosing {opening closing : Option String} {next : Unit → Script α} (h : Carries known acc (next ()) R E) :
    Carries known acc (Script.checkClosing opening closing >>= next) R E := by
  unfold Script.checkClosing
  split
  · split
    · exact h
    · exact fun _ _ => trivial
  · exact h

/-- The name at the end of a procedure is not read again, since it has to be the one at the start. -/
theorem procedureDeclaration : ReadsFrom .kwProcedure (Script.procedureDeclaration ctx) := by
  refine enter (part procedureHeader fun header => expect (by decide) (block (fun _ hv => hv) fun body => ?_))
  exact expectClosing (fun _ hv => hv) fun closing => checkClosing (branched (by simp))

/-- Imported modules are read in the order of their commas. -/
theorem qualifiedImport : Carries (Next (· = .kwImport)) [] (Script.qualifiedImport ctx) reading fun _ => Open := by
  refine enter (skipFirst (by decide) (part identList fun idents => expect (by decide) (last (branch fun node hnode => ?_))))
  exact pure (by simp [hnode]) fun _ hv => hv

/-- The module that is imported from is read before the names. -/
theorem unqualifiedImport : Carries (Next (· = .kwFrom)) [] (Script.unqualifiedImport ctx) reading fun _ => Open := by
  refine enter (skipFirst (by decide) (expectIdent (fun _ hv => hv) fun source => expect (by decide) ?_))
  refine part identList fun idents => expect (by decide) (terminal fun name hname => last (branch fun node hnode => ?_))
  exact pure (by simp [hnode, hname]) fun _ hv => hv

/-- An import is read as the one that its first word tells. -/
theorem importClause : Carries Open [] (Script.importClause ctx) reading fun _ => Open := by
  refine enter (startsWith (t := .kwImport) (by simp [Production.first]) (qualifiedImport.of_known fun _ hv => hv.2) ?_)
  exact startsWith (t := .kwFrom) (by simp [Production.first]) (unqualifiedImport.of_known fun _ hv => hv.2) noAlternative

/-- Imports are read in their order. -/
theorem imports : Carries Open [] (Script.imports ctx) reading fun _ => Open := by
  refine part (whileStarts (importClause.of_known fun _ hv => hv.1)) fun clauses => last (list fun node hnode => ?_)
  exact pure (by simp [hnode]) fun _ hv => hv

/-- A priority is read as its expression. -/
theorem optionalPriority : Carries Open [] (Script.optionalPriority ctx) reading fun _ => Any := by
  refine startsWith (t := .lbracket) (by simp [Production.first]) ?_ (pure Node.reading_empty.symm fun _ _ => trivial)
  refine enter (skipNext (by decide) (calling (fun _ hv => hv) fun priority => expect (by decide) ?_))
  exact pure (by simp) fun _ _ => trivial

/-- At the end of a heading nothing is read. -/
theorem endHeading {set : TokenSet} : Carries known [] (Script.endHeading set) (fun _ => []) fun _ => Open :=
  nextIs (last (skipNext (by decide) (pure rfl fun _ hv => hv))) fun _ _ => trivial

/-- Exported names are read in the order of their commas. -/
theorem exportClause : Carries (Next (· = .kwExport)) [] (Script.exportClause ctx) reading fun _ => Open := by
  refine enter (skipFirst (by decide) ?_)
  refine optionalNext (S := fun _ => []) (M := Open) rfl (fun _ hv => hv) (fun type => ?_) fun hrest => ?_
  · refine part identList fun idents => expect (by decide) (last (branch fun node hnode => ?_))
    exact pure (by simp [hnode]) fun _ hv => hv
  · exact skipNext (by decide) (part (pure rfl fun _ hv => hv) hrest)

/-- A local module is read from its name to its block, and its name at the end not again. -/
theorem moduleDeclaration : ReadsFrom .kwModule (Script.moduleDeclaration ctx) := by
  refine enter (skipFirst (by decide) (expectIdent (fun _ hv => hv) fun ident => part optionalPriority fun priority => ?_))
  refine part endHeading fun _ => part imports fun imports => ?_
  refine optionalStarts (M := Open) Node.reading_empty (fun _ hv => hv) (fun exported => ?_) fun hrest => ?_
  · refine block (fun _ hv => hv) fun block => expectClosing (fun _ hv => hv) fun closing => checkClosing ?_
    exact terminal fun name hname => branched (by simp [hname])
  · exact part (exportClause.of_known fun v hv => by simpa [Next, Production.first] using hv.2) hrest

/-- Declarations are read section by section. -/
theorem declaration : Carries Open [] (Script.declaration ctx) (readingAll reading) fun _ => Open := by
  refine enter (lookahead fun t => ?_)
  split
  · exact (itemSection (by decide) constDefinition).of_known fun _ hv => hv.2
  · exact (itemSection (by decide) typeDeclaration).of_known fun _ hv => hv.2
  · exact (itemSection (by decide) variableDeclaration).of_known fun _ hv => hv.2
  · exact (closed procedureDeclaration).of_known fun _ hv => hv.2
  · exact (closed moduleDeclaration).of_known fun _ hv => hv.2
  · exact fun _ _ => trivial

/-- Declarations are read before statements, and what comes next ends the block. -/
theorem blockBody : Carries Open [] (Script.block ctx) reading fun _ => Ended := by
  refine enter (part (whileStarts (declaration.of_known fun _ hv => hv.1)) fun declarations => ?_)
  refine optionalNext (M := Any) Node.reading_empty (fun _ _ => trivial) (fun statements => ?_) fun hrest => ?_
  · refine expectEnd (list fun list hlist => last (branch fun node hnode => pure ?_ fun _ hv => hv))
    simp [hnode, hlist]
  · exact skipNext (by decide) (calling (fun _ hv => hv) hrest)

/-- The body of every rule takes what is read off its node. -/
theorem body (ctx : Context) (rule : Rule) :
    Carries rule.Expects [] (rule.body ctx) reading fun _ v => rule = .block → Ended v := by
  cases rule with
  | expression => exact expression.mono (fun _ hv => hv) fun _ _ _ => nofun
  | typeExpression => exact typeExpression.mono (fun _ hv => hv) fun _ _ _ => nofun
  | variantFields => exact variantFields.mono (fun _ hv => hv.2) fun _ _ _ => nofun
  | statementSequence => exact statementSequence.mono (fun _ hv => hv) fun _ _ _ => nofun
  | block => exact blockBody.mono (fun _ hv => hv) fun _ _ hv _ => hv

/-! ## Modules -/

/-- A definition module is read without the name at its end. -/
theorem definitionModule : Reads (Script.definitionModule ctx) := by
  refine enter (expectAnyway (by decide) (expectAnyway (by decide) (expectIdent (fun _ hv => hv) fun ident => ?_)))
  refine part endHeading fun _ => part imports fun imports => ?_
  refine part (whileStarts (definition.of_known fun _ hv => hv.1)) fun definitions => expectEnd (test fun named => ?_)
  refine expectClosing (fun _ hv => hv) fun closing => checkClosing (expectAnyway (by decide) ?_)
  exact terminal fun name hname => list fun list hlist => branched (by simp [hname, hlist])

/-- So is a program module, before whose word nothing is known of the names. -/
theorem programModule {type : NodeType} : Carries Any [] (Script.programModule ctx type) reading fun _ => Any := by
  refine enter (expectAnyway (by decide) (expectIdent (fun _ hv => hv) fun ident => part optionalPriority fun priority => ?_))
  refine part endHeading fun _ => part imports fun imports => block (fun _ hv => hv) fun block => ?_
  refine expectClosing (fun _ hv => hv) fun closing => checkClosing (expectAnyway (by decide) ?_)
  exact terminal fun name hname => branched (by simp [hname])

/-- An implementation module is read as what comes after its first word. -/
theorem implementationModule : ReadsFrom .kwImplementation (Script.implementationModule ctx) :=
  enter (skipFirst (by decide) (programModule.of_known fun _ _ => trivial))

/-- After a module there is nothing left. -/
theorem finished {module : Node} : Carries known module.reading (Script.expectEnd >>= fun _ => Pure.pure module) reading
    fun _ => Next (· = .eof) := by
  have hend : Carries known [] Script.expectEnd (fun _ => []) fun _ => Next (· = .eof) :=
    nextIs (pure rfl fun _ hv => hv.2) fun _ _ => trivial
  exact part hend fun _ => pure (by simp) fun _ hv => hv

/-- A unit takes the names that are read off its module, and all there are. -/
theorem unit (ctx : Context) (kind : UnitKind) :
    Carries Open [] (Script.unit ctx kind) reading fun _ => Next (· = .eof) := by
  cases kind with
  | definition => exact bind definitionModule fun module => finished
  | implementation =>
    refine lookahead fun t => ite (fun _ => ?_) fun _ _ _ => trivial
    refine lookahead fun t => ite (fun himplementation => ?_) fun _ => ite (fun _ => ?_) fun _ => ?_
    · have hword : t = .kwImplementation := by simpa [Production.first] using himplementation
      refine bind (implementationModule.of_known fun v hv => ?_) fun module => finished
      rw [← hword]
      exact hv.2
    · exact bind (programModule.of_known fun _ _ => trivial) fun module => finished
    · exact bind (M := fun _ => Any) (pure Node.reading_empty.symm fun _ _ => trivial) fun module => finished

end Carries

end Modula.Script
