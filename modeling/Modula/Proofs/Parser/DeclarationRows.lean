import Modula.Proofs.Parser.StatementRows

/-!
# Declarations and the grammar

The scripts for definitions, declarations and blocks parse the rows of their productions. Procedures and local modules
have names, which are the second of their symbols.
-/

set_option autoImplicit false

namespace Modula.Script.Parses

variable {g : Grammar} {x : String} {known : List Symbol → Prop}

/-! ## Sections -/

/-- Items under a reserved word, each with a semicolon after it. -/
theorem itemSection {p : Production} {t : Token} {item : Script Node} {follow : TokenSet} {S : Node → Prop}
    (ht : t ≠ .eof) (hp : p.isNullable = false) (hitem : Parses g x (Starts g p) item [.call p] S) :
    Parses g x (Next t) (Script.itemSection g.context p item follow)
      [.token t, .many [.call p, .token .semicolon]] fun _ => True := by
  have hfirst : firstOf g.context [.call p, .token .semicolon] = p.first g.context := by
    rw [firstOf, Ebnf.isNullable, hp]
    rfl
  refine skip (fun v hv => hv) ht (whileStarts hfirst (by simp [Ebnf.isNullable, hp]) (S := fun _ => True) ?_)
  exact part hitem fun _ _ => expectAnyway (by simp) (pure trivial)

/-- A single item with a semicolon after it. -/
theorem closed {p : Production} {item : Script Node} {follow : TokenSet} {S : Node → Prop}
    (hitem : Parses g x known item [.call p] S) :
    Parses g x known (Script.closed item follow) [.call p, .token .semicolon] fun _ => True :=
  part hitem fun _ _ => expectAnyway (by simp) (pure trivial)

/-- A constant reads its name and its value. -/
theorem constDefinition : Parses g x known (Script.constDefinition g.context) [.call .constDefinition] fun _ => True := by
  refine production (decides_rules g .constDefinition rfl nofun) fun y => enter (expectIdent fun lexeme => ?_)
  refine expect (by simp) (preparing (terminal (by simp)) fun _ _ => ?_)
  exact part (call fun _ _ => trivial) fun _ _ => branch (by simp)

/-- A type reads its name, and what it is unless that is hidden. -/
theorem typeDefinition : Parses g x known (Script.typeDefinition g.context) [.call .typeDefinition] fun _ => True := by
  refine production (decides_rules g .typeDefinition rfl nofun) fun y => enter (expectIdent fun lexeme => ?_)
  refine preparing (terminal (by simp)) fun _ _ => ?_
  refine optionalNext (S := fun _ => True) rfl rfl trivial (fun _ _ => branch (by simp)) fun hrest => ?_
  exact skip (fun v hv => hv) (by simp) (part (call fun _ _ => trivial) hrest)

/-- Variables read their names and their type. -/
theorem variableDeclaration :
    Parses g x known (Script.variableDeclaration g.context) [.call .variableDeclaration] fun _ => True := by
  refine production (decides_rules g .variableDeclaration rfl nofun) fun y => enter (part identList fun _ _ => ?_)
  exact expect (by simp) (part (call fun _ _ => trivial) fun _ _ => branch (by simp))

/-! ## Names of procedures -/

/-- The name of a heading comes right after its word. -/
theorem name_procedureHeader {v u : List Symbol} (h : Takes g.rules x (g.rules .procedureHeader) v u) : nameAt 1 v = x := by
  obtain ⟨s, v, rfl, -, h⟩ := takes_token.mp h
  obtain ⟨m, h, -⟩ := takes_named.mp h
  obtain ⟨s', v, rfl, -, hname, -⟩ := takes_opening.mp h
  exact hname

/-- So a heading is read with that name. -/
theorem procedureHeader_call :
    Parses g x (Next .kwProcedure) (Script.procedureHeader g.context) [.call .procedureHeader] fun _ => True :=
  productionAt 1 (decides_rules g .procedureHeader rfl nofun) (fun _ _ _ => name_procedureHeader) fun _ =>
    procedureHeader.mono fun _ _ => trivial

/-- Each alternative of definitions reads its section. -/
theorem definition : Parses g x known (Script.definition g.context) [.call .definition] fun _ => True := by
  refine production (decides_rules g .definition rfl nofun) fun y => enter (lookahead fun t => ?_)
  refine of_known (fun v hv => show Next t v from hv.2) ?_
  split
  · exact pickNext rfl (by simp) (itemSection (by simp) rfl constDefinition)
  · exact pickNext rfl (by simp) (itemSection (by simp) rfl typeDefinition)
  · exact pickNext rfl (by simp) (itemSection (by simp) rfl variableDeclaration)
  · exact pickNext rfl (by simp [Production.first]) (closed procedureHeader_call)
  · refine ending (S := fun _ => True) ((noAlternative rfl).of_known fun v hv => ?_) fun _ _ => pure trivial
    rw [first_rules, hv]
    simp_all [Production.first]

/-! ## Types that are declared -/

/-- A record of variable size reads its fields and the one that varies. -/
theorem varSizeRecordType (hextensible : g.context.variantRecords = false) :
    Parses g x (Starts g .varSizeRecordType) (Script.varSizeRecordType g.context) [.call .varSizeRecordType]
      fun _ => True := by
  refine production (decides_rules g .varSizeRecordType rfl nofun) fun y => enter ?_
  refine skip (fun v => eq_of_starts rfl) (by simp) ?_
  refine expect (by simp) (part (fieldListSequence hextensible) fun _ _ => expect (by simp) ?_)
  refine expectIdent fun field => expect (by simp) (expect (by simp) (expectIdent fun size => expect (by simp) ?_))
  refine part qualident fun _ _ => expect (by simp) (preparing (terminal (by simp)) fun _ _ => ?_)
  exact ending (terminal (by simp)) fun _ _ => ending (branch (by simp)) fun _ _ => branch (by simp)

/-- The alternatives of a declared type are its row. -/
theorem typeDeclarationTail :
    Parses g x known (Script.typeDeclarationTail g.context) [.call .typeDeclarationTail] fun _ => True := by
  refine production (decides_rules g .typeDeclarationTail rfl nofun) fun y => enter ?_
  cases hvariant : g.context.variantRecords with
  | true =>
    have hrow : g.rules .typeDeclarationTail = [.call .typeExpression] := by simp [Grammar.rules, hvariant]
    rw [hrow]
    refine demandStarts (fun _ _ => rfl) (call fun _ _ => trivial) (startsNot (fun v hv => ?_) (noAlternative rfl))
    simpa [Production.first, hvariant] using hv
  | false =>
    have hrow : g.rules .typeDeclarationTail = Ebnf.oneOf [[.call .typeExpression], [.call .varSizeRecordType]] := by
      simp [Grammar.rules, hvariant]
    rw [hrow]
    refine starts rfl rfl (call fun _ _ => trivial) ?_
    refine demandStarts (fun v hv => ?_) (varSizeRecordType hvariant) (noAlternative rfl)
    have htype := hv.2
    show _ = (firstOf g.context [.call .varSizeRecordType]).contains (firstToken v)
    simp [Production.first] at htype
    simp [Production.first, hvariant, htype]

/-- A declared type reads its name first. -/
theorem typeDeclaration : Parses g x known (Script.typeDeclaration g.context) [.call .typeDeclaration] fun _ => True := by
  refine production (decides_rules g .typeDeclaration rfl nofun) fun y => enter (expectIdent fun lexeme => ?_)
  refine expect (by simp) (preparing (terminal (by simp)) fun _ _ => ?_)
  exact part typeDeclarationTail fun _ _ => branch (by simp)

/-! ## Imports, exports and headings -/

/-- Modules are read after the word of their import. -/
theorem qualifiedImport :
    Parses g x (Starts g .qualifiedImport) (Script.qualifiedImport g.context) [.call .qualifiedImport] fun _ => True := by
  refine production (decides_rules g .qualifiedImport rfl nofun) fun y => enter ?_
  refine skip (fun v => eq_of_starts rfl) (by simp) (part identList fun _ _ => ?_)
  exact expect (by simp) (branch (by simp))

/-- A module is read, and then the names that are imported from it. -/
theorem unqualifiedImport :
    Parses g x (Starts g .unqualifiedImport) (Script.unqualifiedImport g.context) [.call .unqualifiedImport]
      fun _ => True := by
  refine production (decides_rules g .unqualifiedImport rfl nofun) fun y => enter ?_
  refine skip (fun v => eq_of_starts rfl) (by simp) (expectIdent fun source => expect (by simp) ?_)
  refine part identList fun _ _ => expect (by simp) ?_
  exact ending (terminal (by simp)) fun _ _ => branch (by simp)

/-- The alternatives of an import are its row. -/
theorem importClause : Parses g x known (Script.importClause g.context) [.call .importClause] fun _ => True := by
  refine production (decides_rules g .importClause rfl nofun) fun y => enter (starts rfl rfl qualifiedImport ?_)
  exact demandStarts (fun _ _ => rfl) unqualifiedImport (noAlternative rfl)

/-- Imports are read as long as one starts. -/
theorem imports : Parses g x known (Script.imports g.context) [.many [.call .importClause]] fun _ => True :=
  ending (S := fun _ => True) (whileStarts rfl rfl importClause) fun _ _ => list (by simp)

/-- A priority reads an expression between its brackets. -/
theorem modulePriority :
    Parses g x (Starts g .modulePriority) (Script.modulePriority g.context) [.call .modulePriority] fun _ => True := by
  refine production (decides_rules g .modulePriority rfl nofun) fun y => enter ?_
  refine skip (fun v => eq_of_starts rfl) (by simp) (part (call fun _ _ => trivial) fun _ _ => ?_)
  exact expect (by simp) (pure trivial)

/-- A module reads a priority if one starts here. -/
theorem optionalPriority :
    Parses g x known (Script.optionalPriority g.context) [Ebnf.opt [.call .modulePriority]] fun _ => True :=
  starts rfl rfl modulePriority (pure trivial)

/-- A heading ends in a semicolon. -/
theorem endHeading {body : TokenSet} : Parses g x known (Script.endHeading body) [.token .semicolon] fun _ => True :=
  demandNext rfl (accept (fun v hv => hv) (by simp) (fun _ _ _ => trivial) fun _ => pure trivial) (rejected rfl)

/-- An export reads its names, qualified or not. -/
theorem exportClause :
    Parses g x (Starts g .exportClause) (Script.exportClause g.context) [.call .exportClause] fun _ => True := by
  refine production (decides_rules g .exportClause rfl nofun) fun y => enter ?_
  refine skip (fun v => eq_of_starts rfl) (by simp) ?_
  refine optionalNext (S := (· ≠ .setValue)) rfl rfl (by simp) (fun type htype => ?_) fun hrest => ?_
  · exact part identList fun _ _ => expect (by simp) (branch htype)
  · exact skip (fun v hv => hv) (by simp) (preparing (pure (by simp)) hrest)

/-! ## Procedures and modules in blocks -/

/-- A procedure reads its heading, block and name, which is the one of the heading. -/
theorem procedureDeclaration :
    Parses g x (Next .kwProcedure) (Script.procedureDeclaration g.context) [.call .procedureDeclaration] fun _ => True := by
  refine productionAt 1 (decides_rules g .procedureDeclaration rfl nofun) (fun y v u hu => ?_) fun y => enter ?_
  · obtain ⟨m, hm, -⟩ := takes_named.mp hu
    exact name_procedureHeader hm
  · refine part (named (decides_rules g .procedureHeader rfl nofun) procedureHeader) fun header hheader => ?_
    unfold IsHeaderOf at hheader
    rw [hheader]
    refine expect (by simp) (part (call fun _ _ => trivial) fun _ _ => ?_)
    exact closing (branch (by simp))

/-- A local module reads its name twice. -/
theorem moduleDeclaration :
    Parses g x (Next .kwModule) (Script.moduleDeclaration g.context) [.call .moduleDeclaration] fun _ => True := by
  refine productionAt 1 (decides_rules g .moduleDeclaration rfl nofun) (fun y v u hu => ?_) fun y => enter ?_
  · obtain ⟨s, v, rfl, -, hu⟩ := takes_token.mp hu
    obtain ⟨s', v, rfl, -, hname, -⟩ := takes_opening.mp hu
    exact hname
  · refine skipBefore (by simp) (opening (fun s v hv => hv) (part optionalPriority fun _ _ => part endHeading fun _ _ => ?_))
    refine part imports fun _ _ => ?_
    refine optionalStarts (S := fun _ => True) rfl rfl trivial (fun _ _ => ?_) fun hrest => part exportClause hrest
    refine part (call fun _ _ => trivial) fun _ _ => closing ?_
    exact preparing identNode_some fun _ _ => branch (by simp)

/-- Each alternative of declarations reads its section. -/
theorem declaration : Parses g x known (Script.declaration g.context) [.call .declaration] fun _ => True := by
  refine production (decides_rules g .declaration rfl nofun) fun y => enter (lookahead fun t => ?_)
  refine of_known (fun v hv => show Next t v from hv.2) ?_
  split
  · exact pickNext rfl (by simp) (itemSection (by simp) rfl constDefinition)
  · exact pickNext rfl (by simp) (itemSection (by simp) rfl typeDeclaration)
  · exact pickNext rfl (by simp) (itemSection (by simp) rfl variableDeclaration)
  · exact pickNext rfl (by simp [Production.first]) (closed procedureDeclaration)
  · exact pickNext rfl (by simp [Production.first]) (closed moduleDeclaration)
  · refine ending (S := fun _ => True) ((noAlternative rfl).of_known fun v hv => ?_) fun _ _ => pure trivial
    rw [first_rules, hv]
    simp_all [Production.first]

/-- A block reads declarations, and statements if they start. -/
theorem block : Parses g x known (Script.block g.context) [.call .block] fun _ => True := by
  refine production (decides_rules g .block rfl nofun) fun y => enter ?_
  refine part (whileStarts rfl rfl declaration) fun _ _ => ?_
  refine optionalNext (S := fun _ => True) rfl rfl trivial (fun _ _ => expectAnyway (by simp) ?_) fun hrest => ?_
  · exact ending (list (by simp)) fun _ _ => branch (by simp)
  · exact skip (fun v hv => hv) (by simp) (part (call fun _ _ => trivial) hrest)

end Modula.Script.Parses
