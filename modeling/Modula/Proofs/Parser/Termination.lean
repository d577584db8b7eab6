import Modula.Parser.Run
import Modula.Proofs.Parser.ProductionProgress

/-!
# Parsing ends

A rule that calls another one has taken a symbol before, so that calls nest no deeper than there are symbols. For most
productions this is because they start with a word of their own; an expression and a sequence of statements have to be
followed down to the factor or the statement that they start with. With the progress of loops this makes every parse
end, and no bound of the parser is ever reached (`parse_advances`).
-/

set_option autoImplicit false

namespace Modula

namespace Script

variable {ctx : Context} {calls : Bool} {limit most : Nat}

/-! ## Productions that take their first token -/

/-- A production that starts with a word takes it, and then has fewer symbols ahead than before. -/
theorem consumes_word {p : Production} {t : Token} {rest : Script Node} {wanted : Node → Prop} (ht : t ≠ .eof)
    (hmost : most ≤ limit) (hrest : rest.Progresses true) :
    Consumes limit most (· = t) wanted (enter p >>= fun _ => skip >>= fun _ => rest) :=
  Consumes.enter (Consumes.skip _ (fun h => ht h.symm) (fun _ => hmost) hrest)

/-- A qualified identifier takes its first part. -/
theorem consumes_qualident : Consumes limit most (· = .ident) (fun _ => True) (qualident ctx) := by
  have h : (qualident ctx).Progresses false := progresses_qualident
  exact Consumes.enter (Consumes.bind _ consumes_expectIdent (by simp) (progresses_bind.mp ((progresses_bind.mp h).2 ())).2)

/-- So does a designator. -/
theorem consumes_designator (hmost : most ≤ limit) :
    Consumes limit most (· = .ident) (fun _ => True) (designator ctx) := by
  have h : (designator ctx).Progresses true := progresses_designator
  exact Consumes.enter (Consumes.bind _ consumes_qualident (fun _ => hmost)
    (progresses_bind.mp ((progresses_bind.mp h).2 ())).2)

/-- A statement takes a symbol if the next token can start one, and anyhow halts. -/
theorem statement_eq (ctx : Context) : ∃ next : Token → Script Node,
    statement ctx = (enter .statement >>= fun _ => lookahead >>= next) ∧ ∀ t limit most, most ≤ limit →
      Consumes limit most (· = t) (fun _ => (Production.statement.first ctx).contains t) (next t) := by
  refine ⟨_, rfl, fun t limit most hmost => ?_⟩
  split
  · unfold assignmentOrProcCall
    exact Consumes.enter (Consumes.bind true (consumes_designator hmost) (fun _ => hmost) (by simp))
  · exact consumes_word (by simp) hmost (by simp)
  · exact consumes_word (by simp) hmost (by simp)
  · exact consumes_word (by simp) hmost (by simp [Option.forall])
  · exact consumes_word (by simp) hmost (by simp [progresses_barred])
  · exact consumes_word (by simp) hmost (by simp)
  · exact consumes_word (by simp) hmost (by simp)
  · exact consumes_word (by simp) hmost (by simp)
  · exact consumes_word (by simp) hmost (by simp [Option.forall])
  · exact Consumes.skip true (by simp) (fun _ => hmost) (by simp)
  · exact Consumes.of_halts (progresses_noAlternative.halts false (by simp)) (by simp_all [Production.first])

/-- A statement takes the token that it starts with. -/
theorem consumes_statement (hmost : most ≤ limit) :
    Consumes limit most (fun t => (Production.statement.first ctx).contains t) (fun _ => True) (statement ctx) := by
  obtain ⟨next, heq, hnext⟩ := statement_eq ctx
  rw [heq]
  exact Consumes.enter (Consumes.lookahead fun t ht => (hnext t limit most hmost).weaken fun _ _ => ht)

/-- A statement halts, whether one starts here or not. -/
theorem halts_statement (hmost : most ≤ limit) : Halts limit most (statement ctx) := by
  obtain ⟨next, heq, hnext⟩ := statement_eq ctx
  rw [heq]
  refine Halts.bind (progresses_enter.halts false (by simp)) fun _ => ?_
  exact Halts.lookahead fun t => (hnext t limit most hmost).weaken (by simp)

/-- A list of identifiers takes the first one. -/
theorem consumes_identList : Consumes limit most (· = .ident) (fun _ => True) (identList ctx) := by
  refine Consumes.enter (Consumes.bind false ?_ (by simp) (by simp))
  have h : (separated .comma (expectIdent ((Production.identList.follow ctx).insert .comma))).Progresses false :=
    progresses_separated (by simp) (by simp)
  exact Consumes.bind _ consumes_expectIdent (by simp) (progresses_bind.mp h).2

/-- A heading takes its word. -/
theorem consumes_procedureHeader :
    Consumes limit most (· = .kwProcedure) (fun _ => True) (procedureHeader ctx) :=
  Consumes.enter (Consumes.skip false (by simp) (by simp) (by simp))

/-- An import takes its first word. -/
theorem consumes_importClause :
    Consumes limit most (fun t => (Production.importClause.first ctx).contains t) (fun _ => True)
      (importClause ctx) := by
  refine Consumes.enter (Consumes.starts fun t ht => ?_)
  split
  · next himport =>
    refine Consumes.of_imp (· = .kwImport) (by simp_all [Production.first]) ?_
    exact Consumes.enter (Consumes.skip false (by simp) (by simp) (by simp))
  · next himport =>
    refine Consumes.starts fun u hu => ?_
    subst hu
    split
    · next hfrom =>
      refine Consumes.of_imp (· = .kwFrom) (by simp_all [Production.first]) ?_
      exact Consumes.enter (Consumes.skip false (by simp) (by simp) (by simp [Option.forall]))
    · next hfrom => simp_all [Production.first]

/-- So every round over imports makes progress. -/
@[simp] theorem progresses_imports : (imports ctx).Progresses calls := by
  simp [imports, progresses_whileStarts, consumes_importClause]

/-- A constant takes its name. -/
theorem consumes_constDefinition (hmost : most ≤ limit) :
    Consumes limit most (· = .ident) (fun _ => True) (constDefinition ctx) :=
  Consumes.enter (Consumes.bind true consumes_expectIdent (fun _ => hmost) (by simp [Option.forall]))

/-- So does the definition of a type. -/
theorem consumes_typeDefinition (hmost : most ≤ limit) :
    Consumes limit most (· = .ident) (fun _ => True) (typeDefinition ctx) :=
  Consumes.enter (Consumes.bind true consumes_expectIdent (fun _ => hmost) (by simp [Option.forall]))

/-- So does its declaration. -/
theorem consumes_typeDeclaration (hmost : most ≤ limit) :
    Consumes limit most (· = .ident) (fun _ => True) (typeDeclaration ctx) :=
  Consumes.enter (Consumes.bind true consumes_expectIdent (fun _ => hmost) (by simp [Option.forall]))

/-- Variables take their first name. -/
theorem consumes_variableDeclaration (hmost : most ≤ limit) :
    Consumes limit most (· = .ident) (fun _ => True) (variableDeclaration ctx) :=
  Consumes.enter (Consumes.bind true consumes_identList (fun _ => hmost) (by simp))

/-- The items of a section make a row that goes on if each of them takes its identifier. -/
theorem progresses_itemSection {p : Production} {item : Script Node} {follow : TokenSet}
    (hfirst : ∀ t, (p.first ctx).contains t → t = .ident)
    (hitem : ∀ limit most, most ≤ limit → Consumes limit most (· = .ident) (fun _ => True) item) :
    (itemSection ctx p item follow).Progresses true := by
  refine progresses_bind.mpr ⟨by simp, fun _ => progresses_whileStarts fun limit most hmost => ?_⟩
  have hle : most ≤ limit := (hmost rfl).le
  exact Consumes.bind true (Consumes.of_imp (· = .ident) hfirst (hitem limit most hle)) (fun _ => hle) (by simp)

/-- A section takes its first word. -/
theorem consumes_itemSection {t : Token} {p : Production} {item : Script Node} {follow : TokenSet} (ht : t ≠ .eof)
    (hmost : most ≤ limit) (h : (itemSection ctx p item follow).Progresses true) :
    Consumes limit most (· = t) (fun _ => True) (itemSection ctx p item follow) :=
  Consumes.skip _ (fun heof => ht heof.symm) (fun _ => hmost) ((progresses_bind.mp h).2 ())

/-- A declaration that ends in a semicolon takes what it takes without. -/
theorem consumes_closed {t : Token} {item : Script Node} {follow : TokenSet} (hmost : most ≤ limit)
    (hitem : Consumes limit most (· = t) (fun _ => True) item) :
    Consumes limit most (· = t) (fun _ => True) (closed item follow) :=
  Consumes.bind true hitem (fun _ => hmost) (by simp)

/-- Every constant of a section takes its name. -/
theorem progresses_constSection {follow : TokenSet} :
    (itemSection ctx .constDefinition (constDefinition ctx) follow).Progresses true :=
  progresses_itemSection (by simp [Production.first]) fun _ _ => consumes_constDefinition

/-- So does every type that is defined. -/
theorem progresses_typeSection {follow : TokenSet} :
    (itemSection ctx .typeDefinition (typeDefinition ctx) follow).Progresses true :=
  progresses_itemSection (by simp [Production.first]) fun _ _ => consumes_typeDefinition

/-- So does every type that is declared. -/
theorem progresses_typeDeclarationSection {follow : TokenSet} :
    (itemSection ctx .typeDeclaration (typeDeclaration ctx) follow).Progresses true :=
  progresses_itemSection (by simp [Production.first]) fun _ _ => consumes_typeDeclaration

/-- So do all variables. -/
theorem progresses_variableSection {follow : TokenSet} :
    (itemSection ctx .variableDeclaration (variableDeclaration ctx) follow).Progresses true :=
  progresses_itemSection (by simp [Production.first]) fun _ _ => consumes_variableDeclaration

/-- A section of definitions takes its word. -/
theorem consumes_definition (hmost : most ≤ limit) :
    Consumes limit most (fun t => (Production.definition.first ctx).contains t) (fun _ => True) (definition ctx) := by
  refine Consumes.enter (Consumes.lookahead fun t ht => ?_)
  split
  · exact consumes_itemSection (by simp) hmost progresses_constSection
  · exact consumes_itemSection (by simp) hmost progresses_typeSection
  · exact consumes_itemSection (by simp) hmost progresses_variableSection
  · exact consumes_closed hmost consumes_procedureHeader
  · simp_all [Production.first]

/-- So does a section of declarations. -/
theorem consumes_declaration (hmost : most ≤ limit) :
    Consumes limit most (fun t => (Production.declaration.first ctx).contains t) (fun _ => True)
      (declaration ctx) := by
  refine Consumes.enter (Consumes.lookahead fun t ht => ?_)
  split
  · exact consumes_itemSection (by simp) hmost progresses_constSection
  · exact consumes_itemSection (by simp) hmost progresses_typeDeclarationSection
  · exact consumes_itemSection (by simp) hmost progresses_variableSection
  · refine consumes_closed hmost (Consumes.enter ?_)
    exact Consumes.bind true consumes_procedureHeader (fun _ => hmost) (by simp)
  · refine consumes_closed hmost (Consumes.enter ?_)
    exact Consumes.skip true (by simp) (fun _ => hmost) (by simp)
  · simp_all [Production.first]

/-! ## Modules -/

/-- A definition module loops over its definitions and imports. -/
@[simp] theorem progresses_definitionModule : (definitionModule ctx).Progresses true := by
  have h : (whileStarts ctx .definition (definition ctx)).Progresses true :=
    progresses_whileStarts fun limit most hmost => consumes_definition (hmost rfl).le
  simp [definitionModule, h]

/-- A program module loops over its imports. -/
@[simp] theorem progresses_programModule {type : NodeType} : (programModule ctx type).Progresses true := by
  simp [programModule]

/-- All loops of a unit make progress. -/
theorem progresses_unit (kind : UnitKind) : (unit ctx kind).Progresses true := by
  cases kind with
  | definition => simp [unit, definitionUnit, expectEnd]
  | implementation => simp [unit, implementationUnit, implementationModule, expectEnd]

/-! ## Rules -/

/-- A set takes its brace. -/
theorem consumes_setValue (hmost : most ≤ limit) :
    Consumes limit most (· = .lbrace) (fun _ => True) (setValue ctx) :=
  consumes_word (by simp) hmost (by simp [progresses_separated])

/-- A designator takes its first part whatever follows. -/
theorem consumes_designatorOrFuncCall (hmost : most ≤ limit) :
    Consumes limit most (· = .ident) (fun _ => True) (designatorOrFuncCall ctx) :=
  Consumes.enter (Consumes.bind true (consumes_designator hmost) (fun _ => hmost) (by simp))

/-- A factor halts: a factor that is negated or in parentheses is one symbol behind. -/
theorem halts_factor (hmost : most ≤ limit) : Halts limit most (factor ctx) := by
  unfold factor
  refine Halts.bind (progresses_enter.halts false (by simp)) fun _ => Halts.lookahead fun t => ?_
  split
  · exact Consumes.of_halts (Progresses.halts false (by simp) (by simp)) (by simp)
  · refine Consumes.starts fun t ht => ?_
    subst ht
    split
    · next hbrace =>
      refine Consumes.of_imp (· = .lbrace) (by simp_all [Production.first]) ?_
      exact Consumes.bind true (consumes_setValue hmost) (fun _ => hmost) (by simp)
    · refine Consumes.starts fun t ht => ?_
      subst ht
      split
      · next hident =>
        refine Consumes.of_imp (· = .ident) (by simp_all [Production.first]) ?_
        exact (consumes_designatorOrFuncCall hmost).weaken (by simp)
      · refine Consumes.nextIs fun t ht => ?_
        subst ht
        split
        · next hparen =>
          refine Consumes.skip true ?_ (fun _ => hmost) (by simp)
          simp_all
        · exact Consumes.of_halts (progresses_noAlternative.halts false (by simp)) (by simp)

/-- A negation halts since it takes its word. -/
theorem halts_simpleTerm (hmost : most ≤ limit) : Halts limit most (simpleTerm ctx) := by
  unfold simpleTerm
  refine Halts.bind (progresses_enter.halts false (by simp)) fun _ => Halts.nextIs fun t => ?_
  split
  · next hnot =>
    refine Consumes.skip true ?_ (fun _ => hmost) (by simp)
    rintro rfl
    simp at hnot
  · exact Consumes.of_halts (halts_factor hmost) (by simp)

/-- A product halts with its first factor. -/
theorem halts_term (hmost : most ≤ limit) : Halts limit most (term ctx) := by
  unfold term
  refine Halts.bind (progresses_enter.halts false (by simp)) fun _ => ?_
  refine Halts.bind (halts_simpleTerm hmost) fun first => Halts.loop fun left => ?_
  exact rounds_leftAssociative rfl progresses_simpleTerm hmost

/-- A sign is taken before its term. -/
theorem halts_signedTerm (hmost : most ≤ limit) : Halts limit most (signedTerm ctx) := by
  refine Halts.lookahead fun t => ?_
  split
  · exact Consumes.skip true (by simp) (fun _ => hmost) (by simp)
  · exact Consumes.skip true (by simp) (fun _ => hmost) (by simp)
  · exact Consumes.of_halts (halts_term hmost) (by simp)

/-- A sum halts with its first term. -/
theorem halts_simpleExpression (hmost : most ≤ limit) : Halts limit most (simpleExpression ctx) := by
  unfold simpleExpression
  refine Halts.bind (progresses_enter.halts false (by simp)) fun _ => ?_
  refine Halts.bind (halts_signedTerm hmost) fun first => Halts.loop fun left => ?_
  exact rounds_leftAssociative rfl progresses_term hmost

/-- A relation halts with its left side. -/
theorem halts_expression (hmost : most ≤ limit) : Halts limit most (expression ctx) := by
  unfold expression
  refine Halts.bind (progresses_enter.halts false (by simp)) fun _ => ?_
  refine Halts.bind (halts_simpleExpression hmost) fun left => Halts.lookahead fun t => ?_
  split
  · exact Consumes.of_halts (fun _ _ => trivial) (by simp)
  · next operator hoperator =>
    refine Consumes.skip true ?_ (fun _ => hmost) (by simp)
    rintro rfl
    simp [relation?] at hoperator

/-- A range halts with its lower bound. -/
theorem halts_range (hmost : most ≤ limit) : Halts limit most (range ctx) := by
  unfold range
  refine Halts.bind (progresses_enter.halts false (by simp)) fun _ => ?_
  exact Halts.expect (by simp) hmost (by simp) (Progresses.halts false (by simp) (by simp))

/-- So it does after its bracket. -/
theorem halts_subrange {base : Node} (hmost : most ≤ limit) : Halts limit most (subrange ctx base) :=
  Halts.bind (halts_range hmost) fun bounds =>
    Progresses.halts false (by cases bounds <;> simp) (by simp)

/-- A name or bracket is taken before a type goes on. -/
theorem halts_derivedOrSubrangeType (hmost : most ≤ limit) : Halts limit most (derivedOrSubrangeType ctx) := by
  unfold derivedOrSubrangeType
  refine Halts.bind (progresses_enter.halts false (by simp)) fun _ => Halts.nextIs fun t => ?_
  split
  · next hident =>
    refine Consumes.of_imp (· = .ident) (by simp_all) ?_
    exact Consumes.bind true consumes_qualident (fun _ => hmost) (by simp)
  · exact Consumes.of_halts (halts_subrange hmost) (by simp)

/-- A type halts: each alternative takes its first token before it calls a rule. -/
theorem halts_typeExpression (hmost : most ≤ limit) : Halts limit most (typeExpression ctx) := by
  unfold typeExpression
  refine Halts.bind (progresses_enter.halts false (by simp)) fun _ => Halts.starts fun t => ?_
  split
  · exact Consumes.of_halts (halts_derivedOrSubrangeType hmost) (by simp)
  · refine Consumes.starts fun t ht => ?_
    subst ht
    split
    · exact Consumes.of_halts (progresses_enumType.halts false (by simp)) (by simp)
    · refine Consumes.starts fun t ht => ?_
      subst ht
      split
      · next hset =>
        refine Consumes.of_imp (· = .kwSet) (by simp_all [Production.first]) ?_
        exact consumes_word (by simp) hmost (by simp)
      · refine Consumes.starts fun t ht => ?_
        subst ht
        split
        · next harray =>
          refine Consumes.of_imp (· = .kwArray) (by simp_all [Production.first]) ?_
          exact consumes_word (by simp) hmost (by simp [progresses_separated])
        · refine Consumes.nextIs fun t ht => ?_
          subst ht
          split
          · next hrecord =>
            refine Consumes.of_imp (· = .kwRecord) (by simp_all) ?_
            split
            · exact consumes_word (by simp) hmost (by simp)
            · exact consumes_word (by simp) hmost (by simp)
          · refine Consumes.starts fun t ht => ?_
            subst ht
            split
            · next hpointer =>
              refine Consumes.of_imp (· = .kwPointer) (by simp_all [Production.first]) ?_
              exact consumes_word (by simp) hmost (by simp)
            · refine Consumes.of_halts (Progresses.halts false (by simp) (by simp)) (by simp)

/-- Variant fields take their first word. -/
theorem halts_variantFields (hmost : most ≤ limit) : Halts limit most (variantFields ctx) := by
  unfold variantFields
  refine Halts.bind (progresses_enter.halts false (by simp)) fun _ => ?_
  refine Halts.bind (progresses_skip.halts false (by simp)) fun _ => ?_
  refine Halts.bind (progresses_nextIs.halts false (by simp)) fun tagged => ?_
  -- the first word may be missing at the end of the input, but the colon is there if the tag is followed by more
  extract_lets rest
  have hrest : ∀ tag, Halts limit most (rest tag) := fun tag =>
    Halts.expect (by simp) hmost (by simp [progresses_barred]) (Progresses.halts false (by simp) (by simp))
  split
  · exact Halts.bind (progresses_accept.halts false (by simp)) fun _ =>
      Halts.bind (progresses_terminal.halts false (by simp)) hrest
  · exact hrest _

/-- Statements halt: further ones come after a semicolon. -/
theorem halts_statementSequence (hmost : most ≤ limit) : Halts limit most (statementSequence ctx) := by
  unfold statementSequence
  refine Halts.bind (progresses_enter.halts false (by simp)) fun _ => Halts.lookahead fun t => ?_
  split
  · exact Consumes.of_halts (Progresses.halts false (by simp) (by simp)) (by simp)
  · refine Consumes.of_halts (Halts.bind (halts_statement hmost) fun first => Halts.bind ?_ fun statements => ?_) (by simp)
    · refine Halts.loop fun statements => Rounds.lookahead fun t => ?_
      split
      · next hsemicolon =>
        refine Consumes.skip true ?_ (fun _ => hmost) (by simp)
        simp [hsemicolon]
      · split
        · next hfirst =>
          refine Consumes.reject (Consumes.bind true ?_ (fun _ => hmost) (by simp))
          exact Consumes.of_imp _ (by simp [hfirst]) (consumes_statement hmost)
        · exact Consumes.pure (by simp)
    · exact progresses_list.halts false (by simp)

/-- A block halts with its declarations, each of which takes its word. -/
theorem halts_block (hmost : most ≤ limit) : Halts limit most (block ctx) := by
  unfold block
  refine Halts.bind (progresses_enter.halts false (by simp)) fun _ => ?_
  refine Halts.bind (Halts.whileStarts (consumes_declaration hmost)) fun declarations => Halts.nextIs fun t => ?_
  dsimp only
  split
  · next hbegin =>
    refine Consumes.skip true ?_ (fun _ => hmost) (by simp)
    rintro rfl
    simp at hbegin
  · exact Consumes.of_halts (Progresses.halts false (by simp) (by simp)) (by simp)

/-- The body of every rule halts if rules are called with fewer symbols ahead than it found itself. -/
theorem halts_body (ctx : Context) (rule : Rule) (ahead : List Symbol) :
    (rule.body ctx).Ensures (halting ahead.length) ahead fun _ _ => True := by
  cases rule with
  | expression => exact halts_expression le_rfl ahead le_rfl
  | typeExpression => exact halts_typeExpression le_rfl ahead le_rfl
  | variantFields => exact halts_variantFields le_rfl ahead le_rfl
  | statementSequence => exact halts_statementSequence le_rfl ahead le_rfl
  | block => exact halts_block le_rfl ahead le_rfl

end Script

open Script

/-- A parse starts with as many symbols as the limit takes. -/
theorem ready_start {o : Options} {s : Source} (h : s.rest.length ≤ s.length) :
    (ParserState.start o (.ofSource o s)).Ready :=
  ⟨SymbolReader.ends_ofSource h, (SymbolReader.length_ahead_ofSource h).le⟩

/-- A parse completes from the start of every source. -/
theorem parseSymbols_completes (o : Options) (kind : UnitKind) {s : Source} (h : s.rest.length ≤ s.length) :
    Completes (Rule.body o.context) ((SymbolReader.ofSource o s).ahead.length + 1) (unit o.context kind)
      (.start o (.ofSource o s)) (fun _ _ => True) (parseSymbols o kind (.ofSource o s)) := by
  have hless : (SymbolReader.ofSource o s).ahead.length < (SymbolReader.ofSource o s).total :=
    SymbolReader.length_ahead_ofSource h
  refine Ensures.completes (halts_body o.context) (ready_start h) (by omega) ?_
  exact (progresses_unit kind).halts true (fun _ => Nat.lt_succ_self _) _ le_rfl

/-- Every parse of an accepted text ends, as a unit of either kind and under all options: its symbols are read, and the
parse goes from its start to its outcome, without bounds and with every round of a loop and every cycle of calls taking
a symbol. So the bounds that the parser counts down are never reached. -/
theorem parse_advances (o : Options) (kind : UnitKind) (filename text : String) (s : Source)
    (h : Source.ofText filename text = .ok s) :
    Scan.Reads o.scanRules s (Scan.symbols o.scanRules s) ∧
      Advances (Rule.body o.context) ((SymbolReader.ofSource o s).ahead.length + 1) (unit o.context kind)
        (.start o (.ofSource o s)) (parseSymbols o kind (.ofSource o s)).1 (parseSymbols o kind (.ofSource o s)).2 ∧
      (parse o kind s).exhausted = false := by
  have hlength := Source.length_rest_le h
  have hcompletes := parseSymbols_completes o kind hlength
  exact ⟨Scan.reads_symbols _ _ hlength, hcompletes.advances, hcompletes.bounded⟩

/-- A text that breaks off in the middle of a record. -/
theorem parse_advances_unfinished :
    ∃ s, Source.ofText "m" "MODULE M; TYPE T = RECORD x : ; CASE" = .ok s ∧
      (parse .standard .implementation s).exhausted = false := by
  have h : Source.ofText "m" "MODULE M; TYPE T = RECORD x : ; CASE" =
      .ok (.ofNormalized "m" "MODULE M; TYPE T = RECORD x : ; CASE".toList) := by rfl
  exact ⟨_, h, (parse_advances .standard .implementation _ _ _ h).2.2⟩

end Modula
