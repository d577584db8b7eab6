import Modula.Proofs.Parser.Layout
import Modula.Proofs.Parser.Careful
import Modula.Proofs.Reader.Agreement

/-!
# Diagnostic options do not influence a parse

Logging productions makes a parse look at the next symbol where it would otherwise not yet have looked, but no action
leaves pragmas before the next symbol, so there is nothing to be passed. Errant warnings are all that tolerance leaves
out. Two parses of a text under different diagnostic options therefore go on side by side, and report the same but for
errant warnings and source lines (`diagnostic_options_neutral`).
-/

set_option autoImplicit false

namespace Modula

open SymbolReader ParserState

/-! ## Errant warnings -/

/-- The warnings of errant semicolons and empty sequences, which a parse can be asked to leave out. -/
def Code.isErrant : Code → Bool
  | .semicolonAfterFields | .emptyFields | .semicolonAfterParameters | .semicolonAfterStatements
  | .emptyStatements => true
  | _ => false

/-- A semicolon that should not be there is errant. -/
theorem Code.isErrant_of_ofSemicolon {code : Code} (h : code.ofSemicolon = true) : code.isErrant = true := by
  cases code <;> first | rfl | cases h

/-- So is a sequence without items. -/
theorem Code.isErrant_of_ofNoItems {code : Code} (h : code.ofNoItems = true) : code.isErrant = true := by
  cases code <;> first | rfl | cases h

/-- What is errant is no error. -/
theorem Code.isError_of_isErrant {code : Code} (h : code.isErrant = true) : code.isError = false := by
  cases code <;> first | rfl | cases h

/-- It is a matter of syntax. -/
theorem Code.category_of_isErrant {code : Code} (h : code.isErrant = true) : code.category = .syntactic := by
  cases code <;> first | rfl | cases h

/-! ## States that agree -/

/-- Two states at the same symbols with the same reports, as far as some codes go. If one of them is tolerant and the
other one is not, these are no codes of errant warnings. -/
structure ParserState.Agree (keep : Code → Bool) (s t : ParserState) : Prop where
  reader : SymbolReader.Agree keep s.reader t.reader
  accepted : s.accepted = t.accepted
  tolerant : s.tolerant = t.tolerant ∨ ∀ code : Code, code.isErrant = true → keep code = false

variable {keep : Code → Bool} {s t : ParserState}

/-- The same report leaves two states in agreement. -/
theorem ParserState.Agree.report (h : s.Agree keep t) (d : Diagnostic) :
    SymbolReader.Agree keep (s.report d).reader (t.report d).reader := h.reader.report d

/-- An errant warning is reported in both states, or in none, or nobody looks at it. -/
theorem ParserState.Agree.warn (h : s.Agree keep t) {code : Code} (hcode : code.isErrant = true) (p : Position) :
    SymbolReader.Agree keep (s.warn code p).reader (t.warn code p).reader := by
  obtain hsame | hnone := h.tolerant
  · unfold ParserState.warn
    rw [hsame]
    split
    · exact h.reader
    · exact h.report _
  · have hquiet : ∀ s : ParserState, SymbolReader.Agree keep (s.warn code p).reader s.reader := by
      intro s
      unfold ParserState.warn
      split
      · exact .refl keep s.reader
      · exact agree_report s.reader (hnone code hcode)
    exact (hquiet s).trans (h.reader.trans (hquiet t).symm)

namespace Action

variable {α : Type}

/-- What an action warns of. -/
def warning? : Action α → Option Code
  | .warnNext code | .warnAccepted code => some code
  | _ => none

/-- A discipline asks for no warnings but errant ones. -/
theorem isErrant_of_asks {ctx : Context} {D : Discipline ctx} {action : Action α} {v : AtHand}
    (h : D.Asks action v) : ∀ code ∈ action.warning?, code.isErrant = true := by
  intro code hcode
  cases action with
  | warnNext code' =>
    obtain rfl := Option.some.inj hcode
    exact Code.isErrant_of_ofNoItems h
  | warnAccepted code' =>
    obtain rfl := Option.some.inj hcode
    exact Code.isErrant_of_ofSemicolon h.1
  | lookahead | qualifies | accept | enter p | reject expected | rejectClosing closing | skipped n | build r =>
    cases hcode

/-- Entering a production, noting skipped symbols and building nodes do nothing to a settled state but log. -/
theorem agree_logged {action : Action α} (keep : Code → Bool) (hs : s.reader.next.token ≠ .pragma)
    (haction : match action with | .enter _ | .skipped _ | .build _ => True | _ => False) :
    SymbolReader.Agree keep (action.perform s).2.reader s.reader := by
  cases action with
  | enter p =>
    simp only [perform, settle_of_next hs]
    split
    · exact agree_log keep s.reader _
    · exact .refl keep s.reader
  | skipped n =>
    simp only [perform]
    split
    · exact agree_log keep s.reader _
    · exact .refl keep s.reader
  | build r =>
    cases r with
    | ok node => exact .refl keep s.reader
    | error e =>
      simp only [perform]
      split
      · exact agree_log keep s.reader _
      · split
        · exact agree_log keep s.reader _
        · exact .refl keep s.reader
  | lookahead | qualifies | accept | reject expected | rejectClosing closing | warnNext code | warnAccepted code =>
    exact haction.elim

/-- In settled states that agree, an action yields the same and reads the same symbols. -/
theorem reader_agree (action : Action α) (h : s.Agree keep t) (hs : s.reader.next.token ≠ .pragma)
    (hcode : ∀ code ∈ action.warning?, code.isErrant = true) :
    (action.perform s).1 = (action.perform t).1 ∧
      SymbolReader.Agree keep (action.perform s).2.reader (action.perform t).2.reader := by
  have hnext : s.reader.next = t.reader.next := h.reader.next
  have ht : t.reader.next.token ≠ .pragma := hnext ▸ hs
  cases action with
  | lookahead =>
    simp only [perform, settle_of_next hs, settle_of_next ht]
    exact ⟨by rw [hnext], h.reader⟩
  | qualifies =>
    obtain ⟨hsecond, hpeeked⟩ := h.reader.peekSecond
    simp only [perform, settle_of_next hs, settle_of_next ht]
    by_cases hdot : t.reader.next.token = .dot
    · rw [hnext, if_pos hdot, if_pos hdot]
      exact ⟨by rw [hsecond], hpeeked⟩
    · rw [hnext, if_neg hdot, if_neg hdot]
      exact ⟨rfl, h.reader⟩
  | accept =>
    refine ⟨?_, h.reader.read.skipPragmas⟩
    show s.reader.read.current.lexeme = t.reader.read.current.lexeme
    rw [current_read, current_read, hnext]
  | reject expected =>
    have hreport := h.report
      { code := .unexpectedToken, position := some s.reader.next.position, lexeme := some s.reader.next.lexeme,
        token := some s.reader.next.token, expected := some expected }
    refine ⟨rfl, ?_⟩
    simp only [perform]
    rw [hnext] at hreport ⊢
    exact hreport
  | warnNext code =>
    refine ⟨rfl, ?_⟩
    simp only [perform]
    rw [hnext]
    exact h.warn (hcode code rfl) _
  | warnAccepted code =>
    refine ⟨rfl, ?_⟩
    simp only [perform]
    rw [h.accepted]
    exact h.warn (hcode code rfl) _
  | rejectClosing closing =>
    refine ⟨rfl, ?_⟩
    simp only [perform]
    rw [h.accepted]
    exact h.report _
  | enter p | skipped n =>
    exact ⟨rfl, (agree_logged keep hs trivial).trans (h.reader.trans (agree_logged keep ht trivial).symm)⟩
  | build r =>
    refine ⟨?_, (agree_logged keep hs trivial).trans (h.reader.trans (agree_logged keep ht trivial).symm)⟩
    cases r <;> rfl

/-- Settled states that agree still do so after an action. -/
theorem perform_agree (action : Action α) (h : s.Agree keep t) (hs : s.reader.next.token ≠ .pragma)
    (hcode : ∀ code ∈ action.warning?, code.isErrant = true) :
    (action.perform s).1 = (action.perform t).1 ∧ (action.perform s).2.Agree keep (action.perform t).2 := by
  obtain ⟨hyields, hreader⟩ := action.reader_agree h hs hcode
  refine ⟨hyields, hreader, ?_, ?_⟩
  · by_cases haccepts : action.accepts = true
    · cases action with
      | accept =>
        show s.reader.read.current = t.reader.read.current
        rw [current_read, current_read, h.reader.next]
      | _ => cases haccepts
    · rw [Action.accepted_perform (by simpa using haccepts), Action.accepted_perform (by simpa using haccepts),
        h.accepted]
  · rw [perform_tolerant, perform_tolerant]
    exact h.tolerant

end Action

/-! ## Tolerant parses -/

/-- A tolerant state in which no errant warning has been reported, nor will be of symbols that come into view. -/
structure ParserState.Tolerates (s : ParserState) : Prop where
  tolerant : s.tolerant = true
  lexical : s.reader.BringsLexical
  reported : ∀ e ∈ grammatical s.reader.reporter.diagnostics, e.code.isErrant = false

/-- No action makes a tolerant state report what is errant. -/
theorem Action.perform_tolerates {α : Type} (action : Action α) (h : s.Tolerates) : (action.perform s).2.Tolerates := by
  refine ⟨?_, action.bringsLexical_perform h.lexical, ?_⟩
  · rw [action.perform_tolerant]
    exact h.tolerant
  · have hown : ∀ e ∈ action.reports s, e.code.isErrant = false := by
      intro e he
      cases action with
      | reject expected | rejectClosing closing =>
        obtain rfl := List.mem_singleton.mp he
        rfl
      | warnNext code | warnAccepted code => simp [Action.reports, h.tolerant] at he
      | lookahead | qualifies | accept | enter p | skipped n | build r => cases he
    rw [action.grammatical_perform h.lexical]
    intro e he
    obtain he | he := List.mem_append.mp he
    · exact h.reported e he
    · obtain ⟨e', he', rfl⟩ := List.mem_map.mp he
      exact hown e' (List.mem_of_mem_filter he')

/-! ## Parses -/

section

variable {o : Options} {d d' : DiagnosticOptions} {kind : UnitKind} {s : Source}

/-- A tolerant parse has no errant warnings. -/
theorem isErrant_of_tolerant (hlength : s.rest.length ≤ s.length) (htolerant : o.diagnostics.errantSemicolons = true) :
    ∀ e ∈ (parse o kind s).diagnostics, e.code.isErrant = false := by
  obtain ⟨hlexical, hnone⟩ := grammatical_start o hlength
  have hstart : (ParserState.start o (.ofSource o s)).settle.Tolerates := by
    refine ⟨htolerant, hlexical, ?_⟩
    rw [hnone]
    exact fun e he => (List.not_mem_nil he).elim
  have hend : (parseSymbols o kind (.ofSource o s)).2.Tolerates :=
    (parseSymbols_advances_settled o kind hlength).stays (fun action _ hs => action.perform_tolerates hs) hstart
  intro e he
  by_contra herrant
  have hcode : e.code.isErrant = true := by simpa using herrant
  have hgrammatical : e.isGrammatical = true := by simp [Diagnostic.isGrammatical, Code.category_of_isErrant hcode]
  have hreported := hend.reported e.unplaced (List.mem_map_of_mem (List.mem_filter.mpr ⟨he, hgrammatical⟩))
  exact herrant hreported

/-- Two parses under different diagnostic options yield the same and report the same, as far as some codes go. -/
theorem parses_agree (o : Options) (d d' : DiagnosticOptions) (keep : Code → Bool) (kind : UnitKind)
    (hlength : s.rest.length ≤ s.length)
    (htolerant : d.errantSemicolons = d'.errantSemicolons ∨ ∀ code : Code, code.isErrant = true → keep code = false) :
    (parse { o with diagnostics := d } kind s).module? = (parse { o with diagnostics := d' } kind s).module? ∧
      toldOf keep (parse { o with diagnostics := d } kind s).diagnostics =
        toldOf keep (parse { o with diagnostics := d' } kind s).diagnostics := by
  have hstart : (ParserState.start { o with diagnostics := d } (.ofSource { o with diagnostics := d } s)).settle.Agree keep
      (ParserState.start { o with diagnostics := d' } (.ofSource { o with diagnostics := d' } s)).settle :=
    ⟨(agree_ofSource keep o d d' s).skipPragmas, rfl, htolerant⟩
  have hready : (ParserState.start { o with diagnostics := d } (.ofSource { o with diagnostics := d } s)).Ready :=
    ready_start hlength
  have hsees := hready.sees_settle (D := caring o.context) (fun _ _ => trivial) fun _ _ _ => trivial
  obtain ⟨hstrict, -⟩ | ⟨hnode, w, hend⟩ := (parseSymbols_advances_settled { o with diagnostics := d } kind
    hlength).careful_lockstep (R := fun s t _ => s.Agree keep t) (fun action s t v hsees hst hasks =>
      action.perform_agree hst (by rw [hsees.ready.ends.next_token]; exact hsees.settled) (Action.isErrant_of_asks hasks))
    (parseSymbols_advances_settled { o with diagnostics := d' } kind hlength) hsees hstart
    ((caring o.context).ensures_unit (o := { o with diagnostics := d }) kind s)
  · exact hstrict.elim
  · exact ⟨by rw [module?_parse, module?_parse, hnode], hend.reader.told⟩

/-- The errors among the diagnostics are as many without the codes of warnings. -/
theorem length_errors_toldOf {keep : Code → Bool} (hkeep : ∀ code : Code, code.isError = true → keep code = true)
    (ds : List Diagnostic) : ((toldOf keep ds).filter (·.isError)).length = (ds.filter (·.isError)).length := by
  induction ds with
  | nil => rfl
  | cons e ds ih =>
    have hsame : e.withoutLine.isError = e.isError := rfl
    cases herror : e.isError with
    | true =>
      have hcode : keep e.code = true := hkeep e.code herror
      simpa [toldOf, hcode, hsame, herror] using ih
    | false =>
      cases hcode : keep e.code <;> simpa [toldOf, hcode, hsame, herror] using ih

/-- Every accepted text is parsed to the same module, with as many errors, under all diagnostic options: which of
verbose mode, the logs of symbols and of productions and the display of settings are on, and whether errant semicolons
are accepted. The diagnostics are the same in the same order but for source lines and errant warnings. There are no
errant warnings if errant semicolons are accepted, and the same ones if they are accepted in neither parse or in both. -/
theorem diagnostic_options_neutral (o : Options) (d d' : DiagnosticOptions) (kind : UnitKind) (filename text : String)
    (s : Source) (h : Source.ofText filename text = .ok s) :
    (parse { o with diagnostics := d } kind s).module? = (parse { o with diagnostics := d' } kind s).module? ∧
      (parse { o with diagnostics := d } kind s).errorCount = (parse { o with diagnostics := d' } kind s).errorCount ∧
      ((parse { o with diagnostics := d } kind s).diagnostics.filter (!·.code.isErrant)).map Diagnostic.withoutLine =
        ((parse { o with diagnostics := d' } kind s).diagnostics.filter (!·.code.isErrant)).map
          Diagnostic.withoutLine ∧
      (d.errantSemicolons = true →
        ∀ e ∈ (parse { o with diagnostics := d } kind s).diagnostics, e.code.isErrant = false) ∧
      (d.errantSemicolons = d'.errantSemicolons →
        (parse { o with diagnostics := d } kind s).diagnostics.map Diagnostic.withoutLine =
          (parse { o with diagnostics := d' } kind s).diagnostics.map Diagnostic.withoutLine) := by
  have hlength := Source.length_rest_le h
  have hcounts := (@counts_parse { o with diagnostics := d } kind s hlength).1
  have hcounts' := (@counts_parse { o with diagnostics := d' } kind s hlength).1
  obtain ⟨hmodule, hothers⟩ := parses_agree o d d' (!·.isErrant) kind hlength
    (.inr fun code hcode => by simp [hcode])
  have herrors : ∀ code : Code, code.isError = true → (!code.isErrant) = true := by
    intro code hcode
    by_contra herrant
    have hwarning : code.isError = false := Code.isError_of_isErrant (by simpa using herrant)
    simp [hwarning] at hcode
  refine ⟨hmodule, ?_, hothers, isErrant_of_tolerant (o := { o with diagnostics := d }) hlength, fun hsame => ?_⟩
  · have hlengths := length_errors_toldOf herrors (parse { o with diagnostics := d } kind s).diagnostics
    rw [hothers, length_errors_toldOf herrors] at hlengths
    rw [hcounts, hcounts', hlengths]
  · have hall := (parses_agree o d d' (fun _ => true) kind hlength (.inl hsame)).2
    simpa [toldOf] using hall

/-- A module with a semicolon too many, parsed quietly and with everything on. -/
theorem diagnostic_options_neutral_errant :
    ∃ s, Source.ofText "m" "MODULE M; BEGIN x := 1; END M." = .ok s ∧
      (parse { Options.standard with diagnostics := .none } .implementation s).diagnostics =
        [.atPosition .semicolonAfterStatements ⟨1, 23⟩] ∧
      ∀ e ∈ (parse { Options.standard with diagnostics := ⟨true, true, true, true, true⟩ } .implementation s).diagnostics,
        e.code.isErrant = false := by
  have h : Source.ofText "m" "MODULE M; BEGIN x := 1; END M." =
      .ok (.ofNormalized "m" "MODULE M; BEGIN x := 1; END M.".toList) := by rfl
  obtain ⟨-, -, -, hnone, -⟩ := diagnostic_options_neutral .standard ⟨true, true, true, true, true⟩ .none
    .implementation _ _ _ h
  exact ⟨_, h, by decide, hnone rfl⟩

end

end Modula
