import Modula.Proofs.Parser.TypeRows

/-!
# Statements and the grammar

The scripts for statements parse the rows of their productions. A statement that follows another one without a
semicolon is reported, so that a sequence that is taken without a report has all of its semicolons.
-/

set_option autoImplicit false

namespace Modula.Script.Parses

variable {g : Grammar} {x : String} {known : List Symbol → Prop}

/-! ## Simple statements -/

/-- A designator reads what is assigned to it or passed to it. -/
theorem assignmentOrProcCall :
    Parses g x known (Script.assignmentOrProcCall g.context) [.call .assignmentOrProcCall] fun _ => True := by
  refine production (decides_rules g .assignmentOrProcCall rfl nofun) fun y => enter (part designator fun _ _ => ?_)
  refine nextIs rfl rfl (skip (fun v hv => hv) (by simp) ?_) ?_
  · exact part (call fun _ _ => trivial) fun _ _ => branch (by simp)
  · exact optionalStarts (S := fun _ => True) rfl rfl trivial (fun _ _ => branch (by simp))
      fun hrest => part actualParameters hrest

/-- A return reads an expression if one starts. -/
theorem returnStatement : Parses g x (Next .kwReturn) (Script.returnStatement g.context) [.call .returnStatement]
    fun _ => True := by
  refine production (decides_rules g .returnStatement rfl nofun) fun y => enter (skip (fun v hv => hv) (by simp) ?_)
  refine optionalStarts (S := fun _ => True) rfl rfl trivial (fun _ _ => branch (by simp)) fun hrest => ?_
  exact part (call fun _ _ => trivial) hrest

/-- Leaving a loop reads one word. -/
theorem exitStatement : Parses g x (Next .kwExit) Script.exitStatement [.token .kwExit] fun _ => True :=
  skip (fun v hv => hv) (by simp) (branch (by simp))

/-! ## Statements with parts -/

/-- A designator is read, and then the statements that it is opened for. -/
theorem withStatement : Parses g x (Next .kwWith) (Script.withStatement g.context) [.call .withStatement]
    fun _ => True := by
  refine production (decides_rules g .withStatement rfl nofun) fun y => enter (skip (fun v hv => hv) (by simp) ?_)
  refine part designator fun _ _ => expect (by simp) (part (call fun _ _ => trivial) fun _ _ => ?_)
  exact expect (by simp) (branch (by simp))

/-- Statements for all other cases are read if their word is there. -/
theorem elsePart : Parses g x known Script.elsePart [Ebnf.opt [.token .kwElse, .call .statementSequence]] fun _ => True :=
  nextIs rfl rfl (skip (fun v hv => hv) (by simp) (call fun _ _ => trivial)) (pure trivial)

/-- Further conditions are read as long as their word is there, and none of them is missing. -/
theorem elsifs {follow : TokenSet} : Parses g x known (Script.elsifs follow)
    [.many [.token .kwElsif, .call .expression, .token .kwThen, .call .statementSequence]] (·.isSome = true) := by
  refine ending (S := (·.isSome = true)) (loop (I := (·.isSome = true)) rfl fun branches hbranches => ?_)
    fun branches hbranches => ?_
  · refine Turns.nextIs rfl rfl (skip (fun v hv => hv) (by simp) (part (call fun _ _ => trivial) fun _ _ => ?_)) hbranches
    refine expect (by simp) (part (call fun _ _ => trivial) fun _ _ => ending (branch (by simp)) fun _ _ => pure ?_)
    simpa [Turns.GoesOn] using hbranches
  · exact pure (by simpa using hbranches)

/-- A conditional statement reads all of its conditions up to its end. -/
theorem ifStatement : Parses g x (Next .kwIf) (Script.ifStatement g.context) [.call .ifStatement] fun _ => True := by
  refine production (decides_rules g .ifStatement rfl nofun) fun y => enter (skip (fun v hv => hv) (by simp) ?_)
  refine part (call fun _ _ => trivial) fun _ _ => expect (by simp) (part (call fun _ _ => trivial) fun _ _ => ?_)
  refine part elsifs fun alternatives halternatives => ?_
  obtain ⟨alternatives, rfl⟩ := Option.isSome_iff_exists.mp halternatives
  refine part elsePart fun _ _ => expect (by simp) (ending (list (by simp)) fun _ _ => branch (by simp))

/-- A case reads its labels and statements, or nothing. -/
theorem caseBranch : Parses g x known (Script.caseBranch g.context) [.call .caseBranch] fun _ => True := by
  refine production (decides_rules g .caseBranch rfl nofun) fun y => enter (part caseLabelList fun _ _ => ?_)
  exact expect (by simp) (part (call fun _ _ => trivial) fun _ _ => branch (by simp))

/-- Cases are read with bars between them. -/
theorem caseStatement : Parses g x (Next .kwCase) (Script.caseStatement g.context) [.call .caseStatement]
    fun _ => True := by
  refine production (decides_rules g .caseStatement rfl nofun) fun y => enter (skip (fun v hv => hv) (by simp) ?_)
  refine part (call fun _ _ => trivial) fun _ _ => expect (by simp) (bind (barred rfl caseBranch) fun _ _ => ?_)
  exact part elsePart fun _ _ => expect (by simp) (ending (list (by simp)) fun _ _ => branch (by simp))

/-- A loop reads its statements up to its end. -/
theorem loopStatement : Parses g x (Next .kwLoop) (Script.loopStatement g.context) [.call .loopStatement]
    fun _ => True := by
  refine production (decides_rules g .loopStatement rfl nofun) fun y => enter (skip (fun v hv => hv) (by simp) ?_)
  exact part (call fun _ _ => trivial) fun _ _ => expect (by simp) (branch (by simp))

/-- So does one with a condition before them. -/
theorem whileStatement : Parses g x (Next .kwWhile) (Script.whileStatement g.context) [.call .whileStatement]
    fun _ => True := by
  refine production (decides_rules g .whileStatement rfl nofun) fun y => enter (skip (fun v hv => hv) (by simp) ?_)
  refine part (call fun _ _ => trivial) fun _ _ => expect (by simp) (part (call fun _ _ => trivial) fun _ _ => ?_)
  exact expect (by simp) (branch (by simp))

/-- A loop reads its condition after the statements. -/
theorem repeatStatement : Parses g x (Next .kwRepeat) (Script.repeatStatement g.context) [.call .repeatStatement]
    fun _ => True := by
  refine production (decides_rules g .repeatStatement rfl nofun) fun y => enter (skip (fun v hv => hv) (by simp) ?_)
  refine part (call fun _ _ => trivial) fun _ _ => expect (by simp) (part (call fun _ _ => trivial) fun _ _ => ?_)
  exact branch (by simp)

/-- A loop over a range reads its step if the word is there. -/
theorem forStatement : Parses g x (Next .kwFor) (Script.forStatement g.context) [.call .forStatement]
    fun _ => True := by
  refine production (decides_rules g .forStatement rfl nofun) fun y => enter (skip (fun v hv => hv) (by simp) ?_)
  refine expectIdent fun control => expect (by simp) (part (call fun _ _ => trivial) fun _ _ => expect (by simp) ?_)
  refine part (call fun _ _ => trivial) fun _ _ => ?_
  refine optionalNext (S := fun _ => True) rfl rfl trivial (fun _ _ => expect (by simp) ?_) fun hrest => ?_
  · refine part (call fun _ _ => trivial) fun _ _ => expect (by simp) ?_
    exact ending (terminal (by simp)) fun _ _ => branch (by simp)
  · exact skip (fun v hv => hv) (by simp) (part (call fun _ _ => trivial) hrest)

/-! ## Sequences of statements -/

/-- The alternatives of a statement are its row. -/
theorem statement : Parses g x known (Script.statement g.context) [.call .statement] fun _ => True := by
  refine production (decides_rules g .statement rfl nofun) fun y => enter (lookahead fun t => ?_)
  refine of_known (fun v hv => show Next t v from hv.2) ?_
  split
  · exact pickNext rfl (by simp [Production.first]) assignmentOrProcCall
  · exact pickNext rfl (by simp [Production.first]) returnStatement
  · exact pickNext rfl (by simp [Production.first]) withStatement
  · exact pickNext rfl (by simp [Production.first]) ifStatement
  · exact pickNext rfl (by simp [Production.first]) caseStatement
  · exact pickNext rfl (by simp [Production.first]) loopStatement
  · exact pickNext rfl (by simp [Production.first]) whileStatement
  · exact pickNext rfl (by simp [Production.first]) repeatStatement
  · exact pickNext rfl (by simp [Production.first]) forStatement
  · exact pickNext rfl (by simp [Production.first]) exitStatement
  · refine (noAlternative rfl).of_known fun v hv => ?_
    rw [first_rules, hv]
    simp_all [Production.first]

/-- What the loop over statements does at a token. -/
theorem statementRound (g : Grammar) : ∃ step, SemicolonRound (Production.statementSequence.follow g.context)
    .semicolonAfterStatements (Script.statement g.context) step ∧ Script.statementSequence g.context =
      (Script.enter .statementSequence >>= fun _ => Script.lookahead >>= fun t =>
        if (Production.statementSequence.follow g.context).contains t = true then
          (act (.warnNext .emptyStatements) >>= fun _ => Pure.pure .empty)
        else (Script.statement g.context >>= fun first =>
          (Script.loop [first] fun statements => Script.lookahead >>= step statements) >>= fun statements =>
            Script.list .statementSequence statements.reverse)) := by
  refine ⟨_, ?_, rfl⟩
  refine ⟨fun items => rfl, fun items t ht => ?_⟩
  simp only [ht, if_false]
  split
  · next hfirst =>
    have hrow := semicolonRow_rules g .statementSequence .statement (by simp) nofun
    exact .inr ⟨TokenSet.not_contains_of_isDisjoint hrow.apart (by simpa using hfirst), _, _, rfl⟩
  · exact .inl rfl

/-- Statements are read with semicolons between them. -/
theorem statementSequence :
    Parses g x known (Script.statementSequence g.context) [.call .statementSequence] fun _ => True := by
  obtain ⟨step, hround, heq⟩ := statementRound g
  have hrow := semicolonRow_rules g .statementSequence .statement (by simp) nofun
  rw [heq]
  refine productionBefore fun y => .enter (.optional hrow.whole.1 hrow.whole.2 (warning rfl (pure trivial)) ?_)
  have hstatements : ParsesBefore g y (Production.statementSequence.follow g.context) Unknown
      ((Script.statement g.context >>= fun first =>
        Script.loop [first] fun statements => Script.lookahead >>= step statements) >>= fun statements =>
          Script.list .statementSequence statements.reverse) (Grammar.terminated [.call .statement]) fun _ => True :=
    .ending (parsesBefore_terminated hrow rfl hround statement statement) fun _ _ => list (by simp)
  exact ⟨hstatements.sound, hstatements.complete⟩

end Modula.Script.Parses
