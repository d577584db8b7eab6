import Modula.Proofs.Parser.Trivia
import Modula.Proofs.Reader.ReportOrder
import Modula.Proofs.Reader.Revealing

/-!
# Layout is not seen

Texts whose symbols are the same in token and lexeme are parsed to the same module, and the same is reported of their
grammar, whatever stands between the symbols and also if there are errors (`layout_invisible`). The two parses see the
same and go on side by side. What lies between the symbols may bring faults of its own into the reports, but these are
lexical faults, which the reports about the grammar are told from.
-/

set_option autoImplicit false

namespace Modula

open SymbolReader ParserState Scan

/-! ## Reports about the grammar -/

/-- Whether the diagnostic is about the grammar: unexpected tokens, semicolons too many, empty sequences and closing
identifiers. -/
def Diagnostic.isGrammatical (d : Diagnostic) : Bool :=
  d.code.category = .syntactic || d.code.category = .semantic

/-- The diagnostics about the grammar, without places. -/
def grammatical (ds : List Diagnostic) : List Diagnostic := (ds.filter (·.isGrammatical)).map Diagnostic.unplaced

/-- Of two rows of diagnostics, those of the grammar are told in their order. -/
theorem grammatical_append (ds ds' : List Diagnostic) : grammatical (ds ++ ds') = grammatical ds ++ grammatical ds' := by
  simp [grammatical]

/-- Lexical diagnostics are none of the grammar. -/
theorem grammatical_of_lexical {ds : List Diagnostic} (h : ∀ d ∈ ds, d.code.category = .lexical) :
    grammatical ds = [] := by
  have hnone : ds.filter (·.isGrammatical) = [] := by
    rw [List.filter_eq_nil_iff]
    intro d hd
    simp [Diagnostic.isGrammatical, h d hd]
  rw [grammatical, hnone, List.map_nil]

/-- Diagnostics of the grammar are told without their places. -/
theorem grammatical_unplaced (ds : List Diagnostic) : grammatical (ds.map Diagnostic.unplaced) = grammatical ds := by
  simp only [grammatical, List.filter_map, List.map_map]
  rfl

/-- Emitted diagnostics of the grammar come after those that were there. -/
theorem Reporter.grammatical_emitAll (r : Reporter) (ds : List Diagnostic) :
    grammatical (r.emitAll ds).diagnostics = grammatical r.diagnostics ++ grammatical ds := by
  rw [diagnostics_emitAll_eq, grammatical_append]
  congr 1
  simp only [grammatical, List.filter_map, List.map_map]
  rfl

namespace SymbolReader

/-- The symbols that have not come into view bring lexical faults only. -/
def BringsLexical (r : SymbolReader) : Prop := ∀ u ∈ r.unseen, ∀ d ∈ u.faults, d.code.category = .lexical

variable {r r' : SymbolReader}

/-- A reader that goes on brings lexical diagnostics only, if it did before. -/
theorem Reveals.bringsLexical (h : Reveals r r') (hr : r.BringsLexical) : r'.BringsLexical :=
  fun u hu => hr u (h.unseen u hu)

/-- Symbols that come into view add nothing to what is reported of the grammar. -/
theorem Reveals.grammatical_eq (h : Reveals r r') (hr : r.BringsLexical) :
    grammatical r'.reporter.diagnostics = grammatical r.reporter.diagnostics := by
  obtain ⟨ds, hds, hfaults⟩ := h.reports
  have hlexical : grammatical ds = [] := by
    refine grammatical_of_lexical fun d hd => ?_
    obtain ⟨u, hu, hdu⟩ := hfaults d hd
    exact hr u hu d hdu
  rw [hds, Reporter.grammatical_emitAll, hlexical, List.append_nil]

end SymbolReader

/-! ## Actions -/

namespace Action

variable {α : Type} {s t : ParserState}

/-- So it is after every action. -/
theorem bringsLexical_perform (action : Action α) (h : s.reader.BringsLexical) :
    (action.perform s).2.reader.BringsLexical :=
  action.keeps_perform (P := BringsLexical) (fun r hr => (reveals_read r).bringsLexical hr)
    (fun r hr => (reveals_peekSecond r).bringsLexical hr) (fun _ _ _ hr => hr) (fun _ _ hr => hr) h

/-- To what is reported of the grammar, an action adds its own reports. -/
theorem grammatical_perform (action : Action α) (h : s.reader.BringsLexical) :
    grammatical (action.perform s).2.reader.reporter.diagnostics =
      grammatical s.reader.reporter.diagnostics ++ grammatical (action.reports s) := by
  have hquiet : ∀ {r : SymbolReader}, Reveals s.reader r → grammatical r.reporter.diagnostics =
      grammatical s.reader.reporter.diagnostics ++ grammatical [] := fun hr => by
    rw [hr.grammatical_eq h]
    exact (List.append_nil _).symm
  have hreport : ∀ d : Diagnostic, grammatical (s.report d).reader.reporter.diagnostics =
      grammatical s.reader.reporter.diagnostics ++ grammatical [d.unplaced] := fun d => by
    rw [← List.map_singleton, grammatical_unplaced]
    exact Reporter.grammatical_emitAll _ [d]
  have hstays := hquiet (.refl s.reader)
  have hsettle : Reveals s.reader s.settle.reader := reveals_skipPragmas _
  cases action with
  | lookahead => exact hquiet hsettle
  | qualifies =>
    simp only [perform]
    split
    · exact hquiet (hsettle.trans (reveals_peekSecond _))
    · exact hquiet hsettle
  | accept => exact hquiet ((reveals_read _).trans (reveals_skipPragmas _))
  | enter p =>
    simp only [perform]
    split
    · have hsettled := hquiet hsettle
      exact hsettled
    · exact hstays
  | reject expected | rejectClosing closing => exact hreport _
  | warnNext code | warnAccepted code =>
    simp only [perform, warn, reports]
    split
    · exact hstays
    · exact hreport _
  | skipped n =>
    simp only [perform]
    split <;> exact hstays
  | build node =>
    cases node with
    | ok node => exact hstays
    | error e =>
      simp only [perform]
      split
      · exact hstays
      · split <;> exact hstays

end Action

/-! ## Parses -/

/-- Two states in which a parse sees the same and has reported the same of the grammar. -/
structure ParserState.Parallel (s t : ParserState) : Prop where
  seesAlike : s.SeesAlike .always t
  lexical : s.reader.BringsLexical
  lexical' : t.reader.BringsLexical
  grammatical : grammatical s.reader.reporter.diagnostics = grammatical t.reader.reporter.diagnostics

/-- An action does the same in parallel states and leaves them parallel. -/
theorem Action.perform_parallel {α : Type} (action : Action α) {s t : ParserState} (h : s.Parallel t) :
    (action.perform s).1 = (action.perform t).1 ∧ (action.perform s).2.Parallel (action.perform t).2 := by
  obtain ⟨hyields, hsees⟩ := action.perform_seesAlike h.seesAlike fun _ => rfl
  refine ⟨hyields, hsees, action.bringsLexical_perform h.lexical, action.bringsLexical_perform h.lexical', ?_⟩
  rw [action.grammatical_perform h.lexical, action.grammatical_perform h.lexical', h.grammatical,
    action.reports_seesAlike h.seesAlike]

section

variable {o : Options} {kind : UnitKind} {s t : Source}

/-- Before the first symbol is accepted, nothing has been reported of the grammar. -/
theorem grammatical_start (o : Options) (hlength : s.rest.length ≤ s.length) :
    (ParserState.start o (.ofSource o s)).settle.reader.BringsLexical ∧
      grammatical (ParserState.start o (.ofSource o s)).settle.reader.reporter.diagnostics = [] := by
  have hall : Reveals (unread o s) (ParserState.start o (.ofSource o s)).settle.reader :=
    (reveals_ofSource o s).trans (reveals_skipPragmas _)
  have hlexical : (unread o s).BringsLexical := (reads_symbols o.scanRules s hlength).ascending.lexical
  refine ⟨hall.bringsLexical hlexical, ?_⟩
  rw [hall.grammatical_eq hlexical]
  rfl

/-- The module of a parse is what its run yields, if that may stand below a root. -/
theorem module?_parse (o : Options) (kind : UnitKind) (s : Source) :
    (parse o kind s).module? =
      if NodeType.root.allowsAt 2 (parseSymbols o kind (.ofSource o s)).1.type then
        some (parseSymbols o kind (.ofSource o s)).1 else none := by
  rw [Outcome.module?, root_parse_eq, rootOf_eq]
  split <;> rfl

/-- Two texts have the same symbols but for their places: the module is the same, or there is none of either, and the
same is reported of the grammar, in the same order. -/
theorem layout_invisible (o : Options) (kind : UnitKind) (filename filename' text text' : String) (s s' : Source)
    (h : Source.ofText filename text = .ok s) (h' : Source.ofText filename' text' = .ok s')
    (hsymbols : (Scan.symbols o.scanRules s).map (fun u => (u.symbol.token, u.symbol.lexeme)) =
      (Scan.symbols o.scanRules s').map fun u => (u.symbol.token, u.symbol.lexeme)) :
    (parse o kind s).module? = (parse o kind s').module? ∧
      grammatical (parse o kind s).diagnostics = grammatical (parse o kind s').diagnostics := by
  have hlength := Source.length_rest_le h
  have hlength' := Source.length_rest_le h'
  have hsame : List.Forall₂ Symbol.Same ((Scan.symbols o.scanRules s).map (·.symbol))
      ((Scan.symbols o.scanRules s').map (·.symbol)) := by
    rw [List.forall₂_map_left_iff, List.forall₂_map_right_iff]
    rw [← List.forall₂_eq_eq_eq, List.forall₂_map_left_iff, List.forall₂_map_right_iff] at hsymbols
    exact hsymbols.imp fun u v huv => Prod.mk.inj huv
  obtain ⟨hlexical, hnone⟩ := grammatical_start o hlength
  obtain ⟨hlexical', hnone'⟩ := grammatical_start o hlength'
  have hstart : (ParserState.start o (.ofSource o s)).settle.Parallel (ParserState.start o (.ofSource o s')).settle :=
    ⟨seesAlike_start (sight_congr _ hsame) hlength hlength', hlexical, hlexical', by rw [hnone, hnone']⟩
  obtain ⟨hmodule, hend⟩ := (parseSymbols_advances_settled o kind hlength).lockstep
    (fun action _ _ hst => action.perform_parallel hst) (parseSymbols_advances_settled o kind hlength') hstart
  exact ⟨by rw [module?_parse, module?_parse, hmodule], hend.grammatical⟩

/-- A program in which an expression is missing, without layout and with a comment and a disabled section. -/
theorem layout_invisible_section :
    ∃ s s', Source.ofText "m" "MODULE M;BEGIN x:=;y END N." = .ok s ∧
      Source.ofText "n" "MODULE M; (* one *)\n?<\n>?\nBEGIN\n  x := ; y\nEND N.\n" = .ok s' ∧
      (parse .standard .implementation s).module? = (parse .standard .implementation s').module? ∧
      grammatical (parse .standard .implementation s).diagnostics =
        grammatical (parse .standard .implementation s').diagnostics := by
  have h : Source.ofText "m" "MODULE M;BEGIN x:=;y END N." =
      .ok (.ofNormalized "m" "MODULE M;BEGIN x:=;y END N.".toList) := by rfl
  have h' : Source.ofText "n" "MODULE M; (* one *)\n?<\n>?\nBEGIN\n  x := ; y\nEND N.\n" =
      .ok (.ofNormalized "n" "MODULE M; (* one *)\n?<\n>?\nBEGIN\n  x := ; y\nEND N.\n".toList) := by rfl
  obtain ⟨hmodule, hreports⟩ := layout_invisible .standard .implementation _ _ _ _ _ _ h h' (by decide +kernel)
  exact ⟨_, _, h, h', hmodule, hreports⟩

end

end Modula
