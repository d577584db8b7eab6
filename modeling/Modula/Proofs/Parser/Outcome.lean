import Modula.Proofs.Parser.Acceptance
import Modula.Proofs.Parser.Settled
import Modula.Proofs.Tree.ModuleNode

/-!
# What comes of a parse

A parse yields the tree of a module if and only if no error was reported, and otherwise fails with the number of errors
(`parse_outcome`). The counts of a parse are those of its diagnostics, and a parse without errors has a root over a
module, since the node of the module is built whatever else is lost.
-/

set_option autoImplicit false

namespace Modula

open SymbolReader ParserState

/-- A state that may go on, whose next token is the one that is known. -/
structure ParserState.Knows (s : ParserState) (v : Option Token) : Prop where
  ready : s.Ready
  next : ∀ t ∈ v, firstToken s.reader.ahead ≠ .pragma ∧ (firstToken s.reader.ahead).wellFormed = t

/-- Actions do what is said of them, unless an error has been reported. -/
theorem Action.follows_surviving {α : Type} (action : Action α) {s : ParserState} {v : Option Token}
    {Q : α → Option Token → Prop} (hs : s.Knows v) (hQ : surviving.act action v Q) :
    0 < (action.perform s).2.reader.reporter.errorCount ∨
      ∃ w, (action.perform s).2.Knows w ∧ Q (action.perform s).1 w := by
  obtain ⟨hready, hleaves⟩ := action.perform_leaves hs.ready
  have hkeeps : (action.perform s).2.reader.ahead = s.reader.ahead ∨
      (action.perform s).2.reader.ahead = withoutPragmas s.reader.ahead → (action.perform s).2.Knows v := by
    rintro (hahead | hahead)
    · exact ⟨hready, fun t ht => by rw [hahead]; exact hs.next t ht⟩
    · refine ⟨hready, fun t ht => ?_⟩
      rw [hahead, withoutPragmas_of_settled (hs.next t ht).1]
      exact hs.next t ht
  cases action with
  | lookahead =>
    obtain ⟨hahead, htoken⟩ := hleaves
    refine .inr ⟨some (lookahead.perform s).1, ⟨hready, ?_⟩, hQ _ fun u hu => ?_⟩
    · rintro t ⟨rfl⟩
      rw [hahead]
      exact ⟨firstToken_withoutPragmas _, by rw [htoken, hahead]⟩
    · rw [htoken, hahead, withoutPragmas_of_settled (hs.next u hu).1, (hs.next u hu).2]
  | qualifies => exact .inr ⟨v, hkeeps (.inr hleaves.1), hQ _⟩
  | accept => exact .inr ⟨none, ⟨hready, nofun⟩, hQ _⟩
  | enter p => exact .inr ⟨v, hkeeps hleaves, hQ⟩
  | reject expected | rejectClosing closing => exact .inl (errorCount_report_pos s rfl)
  | warnNext code | warnAccepted code | skipped n => exact .inr ⟨v, hkeeps (.inl hleaves), hQ⟩
  | build node =>
    obtain ⟨hahead, hnode⟩ := hleaves
    refine .inr ⟨v, hkeeps (.inl hahead), ?_⟩
    rw [hnode]
    cases node with
    | ok node => exact hQ
    | error e => exact hQ

/-- A run without errors does what its script is said to do. -/
theorem Script.Advances.survives {ctx : Context} {limit : Nat} {α : Type} {script : Script α} {a : α}
    {s s' : ParserState} {Q : α → Option Token → Prop} (h : Advances (Rule.body ctx) limit script s a s')
    (hs : s.Ready) (hQ : script.Ensures surviving none Q) :
    0 < s'.reader.reporter.errorCount ∨ ∃ w, s'.Knows w ∧ Q a w := by
  have hlost : ∀ {γ : Type} (action : Action γ) (s : ParserState), 0 < s.reader.reporter.errorCount →
      0 < (action.perform s).2.reader.reporter.errorCount :=
    fun action s hs => hs.trans_le (action.perform_grows s).reported
  have hcall : ∀ (rule : Rule) (v : Option Token) (Q : Node → Option Token → Prop), surviving.call rule v Q →
      (rule.body ctx).Ensures surviving v Q :=
    fun rule v Q hQ => (makes_body rule v).mono fun node w hnode => hQ node w hnode
  have hknows : s.Knows none := ⟨hs, nofun⟩
  exact Ensures.holds (fun action s v Q => action.follows_surviving) hlost hcall h hknows hQ

/-- If what comes next is known to be the end of the input, it is, and all symbols have come into view. -/
theorem ParserState.Knows.at_end {s : ParserState} (hs : s.Knows (some .eof)) :
    s.reader.next.token = .eof ∧ s.reader.unseen = [] := by
  obtain ⟨-, hend⟩ := hs.next .eof rfl
  have heof : firstToken s.reader.ahead = .eof := (wellFormed_eq_iff (by simp)).mp hend
  exact ⟨hs.ready.ends.next_token.trans heof, (hs.ready.ends.at_end heof).2⟩

/-- The first two places of a root are always filled. -/
theorem rootOf_eq_ofBranch (o : Options) (filename : String) (module : Node) :
    rootOf o filename module =
      Node.ofBranch .root [.leaf .filename [filename], .leaf .settings o.settingTerms, module] := by
  have hsettings : Node.ofValues .settings o.settingTerms = .ok (.leaf .settings o.settingTerms) := by
    simp [Node.ofValues, NodeType.shape, NodeType.allowsCount, NodeType.countRange]
  simp only [rootOf, Node.ofValue, NodeType.shape, hsettings]
  rfl

/-- A root is built over what may stand at its last place. -/
theorem rootOf_eq (o : Options) (filename : String) (module : Node) :
    rootOf o filename module =
      if NodeType.root.allowsAt 2 module.type then
        .ok (.inner .root [.leaf .filename [filename], .leaf .settings o.settingTerms, module])
      else .error (.misplaced .root 2 module.type) := by
  have hbranch : NodeType.root.isBranch = true := by decide
  have hcount : NodeType.root.allowsCount 3 = true := by decide
  have hfilename : NodeType.root.allowsAt 0 .filename = true := by decide
  have hplace : NodeType.root.allowsAt 1 .settings = true := by decide
  have htype : ∀ t vs, (Node.leaf t vs).type = t := fun _ _ => rfl
  have hfault : Node.fault? .root [.leaf .filename [filename], .leaf .settings o.settingTerms, module] =
      if NodeType.root.allowsAt 2 module.type then none else some (.misplaced .root 2 module.type) := by
    simp [Node.fault?, Node.misplaced?, htype, hcount, hfilename, hplace]
  rw [rootOf_eq_ofBranch, Node.ofBranch, if_pos hbranch, hfault]
  by_cases h : NodeType.root.allowsAt 2 module.type = true
  · rw [if_pos h, if_pos h]
  · rw [if_neg h, if_neg h]

/-- Every module may stand below a root. -/
theorem allowsAt_of_moduleTypes {kind : UnitKind} {module : Node} (h : module.type ∈ kind.moduleTypes) :
    NodeType.root.allowsAt 2 module.type = true := by
  have hall : ∀ t ∈ kind.moduleTypes, NodeType.root.allowsAt 2 t = true := by cases kind <;> decide
  exact hall _ h

section

variable {o : Options} {kind : UnitKind} {s : Source}

/-- The counts of a parse are those of its diagnostics. -/
theorem counts_parse (hlength : s.rest.length ≤ s.length) :
    (parse o kind s).errorCount = ((parse o kind s).diagnostics.filter (·.isError)).length ∧
      (parse o kind s).warningCount = ((parse o kind s).diagnostics.filter (!·.isError)).length := by
  have hadvances := (parseSymbols_completes o kind hlength).advances
  have hcounts : (parseSymbols o kind (.ofSource o s)).2.reader.reporter.Counts :=
    hadvances.counts (counts_ofSource o s)
  exact ⟨hcounts.errors, hcounts.warnings⟩

/-- The root of a parse is the one over what its run yields, if that may stand there. -/
theorem root_parse_eq (o : Options) (kind : UnitKind) (s : Source) :
    (parse o kind s).root = (rootOf o s.filename (parseSymbols o kind (.ofSource o s)).1).toOption.getD .empty := by
  by_cases hempty : (parseSymbols o kind (.ofSource o s)).1.isEmpty = true
  · have htype : (parseSymbols o kind (.ofSource o s)).1.type = .empty := by simpa [Node.isEmpty] using hempty
    have hplace : NodeType.root.allowsAt 2 .empty = false := by decide
    rw [rootOf_eq, htype, hplace]
    simp [parse, hempty, Except.toOption]
  · simp [parse, hempty]

/-- A parse without errors has a root over a module of the unit. -/
theorem root_parse (hlength : s.rest.length ≤ s.length) (hzero : (parse o kind s).errorCount = 0) :
    (parseSymbols o kind (.ofSource o s)).1.type ∈ kind.moduleTypes ∧ (parse o kind s).root =
      .inner .root [.leaf .filename [s.filename], .leaf .settings o.settingTerms,
        (parseSymbols o kind (.ofSource o s)).1] := by
  have hadvances := (parseSymbols_completes o kind hlength).advances
  obtain hlost | ⟨-, -, hmodule⟩ := hadvances.survives (ready_start hlength) (Script.makes_unit kind none)
  · have hfinal : (parseSymbols o kind (.ofSource o s)).2.reader.reporter.errorCount = 0 := hzero
    omega
  · refine ⟨hmodule, ?_⟩
    rw [root_parse_eq, rootOf_eq, if_pos (allowsAt_of_moduleTypes hmodule)]
    rfl

/-- A parse without errors goes on to the end of the input, and all symbols have come into view. -/
theorem at_end_parse (hlength : s.rest.length ≤ s.length) (hzero : (parse o kind s).errorCount = 0) :
    (parseSymbols o kind (.ofSource o s)).2.reader.next.token = .eof ∧
      (parseSymbols o kind (.ofSource o s)).2.reader.unseen = [] := by
  have hadvances := (parseSymbols_completes o kind hlength).advances
  have hfinal : (parseSymbols o kind (.ofSource o s)).2.reader.reporter.errorCount = 0 := hzero
  obtain hlost | ⟨w, hknows, rfl⟩ := hadvances.survives (ready_start hlength) (Script.ends_unit kind none)
  · omega
  · exact hknows.at_end

/-- A text that is parsed without errors has none among its symbols. -/
theorem faultless_parse (hlength : s.rest.length ≤ s.length) (hzero : (parse o kind s).errorCount = 0) :
    ∀ t ∈ Scan.symbols o.scanRules s, Scan.Faultless t.faults := by
  have hgrows : (ofSource o s).errors ≤ _ := (parseSymbols_completes o kind hlength).advances.grows.errors
  have hend : (parseSymbols o kind (.ofSource o s)).2.reader.errors = (parse o kind s).errorCount := by
    rw [SymbolReader.errors, (at_end_parse hlength hzero).2]
    rfl
  exact SymbolReader.errors_ofSource_eq_zero.mp (show (ofSource o s).errors = 0 by omega)

end

/-- In every parse of an accepted text, as a unit of either kind and under all options: the counts of errors and of
warnings are those of the diagnostics; without errors there is a root over a module of the unit; and there is a result
if and only if no error was reported, and otherwise the failure tells the number of errors, of which there is one. -/
theorem parse_outcome (o : Options) (kind : UnitKind) (filename text : String) (s : Source)
    (h : Source.ofText filename text = .ok s) :
    (parse o kind s).errorCount = ((parse o kind s).diagnostics.filter (·.isError)).length ∧
      (parse o kind s).warningCount = ((parse o kind s).diagnostics.filter (!·.isError)).length ∧
      ((parse o kind s).errorCount = 0 → (parse o kind s).root.type = .root ∧
        ∃ module : Node, (parse o kind s).module? = some module ∧ module.type ∈ kind.moduleTypes) ∧
      ((∀ d ∈ (parse o kind s).diagnostics, d.isError = false) ∧
          (parse o kind s).result = .ok (parse o kind s).root ∨
        0 < ((parse o kind s).diagnostics.filter (·.isError)).length ∧ (parse o kind s).result =
          .error (.errors ((parse o kind s).diagnostics.filter (·.isError)).length)) := by
  have hlength := Source.length_rest_le h
  obtain ⟨herrors, hwarnings⟩ := @counts_parse o kind s hlength
  refine ⟨herrors, hwarnings, fun hzero => ?_, ?_⟩
  · obtain ⟨hmodule, hroot⟩ := root_parse hlength hzero
    rw [Outcome.module?, hroot]
    exact ⟨rfl, _, rfl, hmodule⟩
  · by_cases hzero : (parse o kind s).errorCount = 0
    · obtain ⟨hmodule, hroot⟩ := root_parse hlength hzero
      refine .inl ⟨fun d hd => ?_, ?_⟩
      · rw [hzero] at herrors
        have hnone := List.filter_eq_nil_iff.mp (List.length_eq_zero_iff.mp herrors.symm) d hd
        simpa using hnone
      · have hok : (parse o kind s).isOk = true := by simp [Outcome.isOk, hzero, hroot, Node.isEmpty, Node.type]
        simp [Outcome.result, hok]
    · rw [← herrors]
      refine .inr ⟨Nat.pos_of_ne_zero hzero, ?_⟩
      have hok : (parse o kind s).isOk = false := by simp [Outcome.isOk, hzero]
      have hmax : max 1 (parse o kind s).errorCount = (parse o kind s).errorCount := by omega
      simp [Outcome.result, hok, hmax]

/-- A program in which an expression is missing. -/
theorem parse_outcome_incomplete :
    ∃ s, Source.ofText "m" "MODULE M; BEGIN x := END M." = .ok s ∧
      ((parse .standard .implementation s).diagnostics.filter (·.isError)).length = 1 ∧
      (parse .standard .implementation s).result = .error (.errors 1) := by
  have h : Source.ofText "m" "MODULE M; BEGIN x := END M." =
      .ok (.ofNormalized "m" "MODULE M; BEGIN x := END M.".toList) := by rfl
  have hone : (parse .standard .implementation
      (.ofNormalized "m" "MODULE M; BEGIN x := END M.".toList)).errorCount = 1 := by decide
  obtain ⟨herrors, -, -, hresult⟩ := parse_outcome .standard .implementation _ _ _ h
  rw [hone] at herrors
  refine ⟨_, h, herrors.symm, ?_⟩
  obtain ⟨hnone, -⟩ | ⟨-, hfailure⟩ := hresult
  · rw [List.filter_eq_nil_iff.mpr (by simpa using hnone)] at herrors
    cases herrors
  · rw [hfailure, ← herrors]

end Modula
