import Modula.Proofs.Parser.Acceptance
import Modula.Proofs.Parser.Outcome
import Modula.Proofs.Parser.Settled
import Modula.Proofs.Tree.ProductionReadings

/-!
# Names in source order

The tree of a text that is parsed without errors and without losing nodes keeps every identifier and literal of the
text, in the order in which they stand there (`reading_module`). The scripts of the productions were shown to take what
is read off their trees; here their runs are followed from the first symbol of a text to the last one.
-/

set_option autoImplicit false

namespace Modula

open SymbolReader ParserState

/-- The identifiers and literals of a text, but for the identifier after an `END`, which repeats the name of the module
or procedure that ends there. Pragmas are passed over. -/
def namesOf (symbols : List Symbol) : List String := namesAfter .unknown (symbols.filter (·.token ≠ .pragma))

/-! ## Symbols without pragmas -/

/-- The symbols that are no pragmas, as the parser takes them. -/
def bareSymbols (ahead : List Symbol) : List Symbol := (ahead.filter (·.token ≠ .pragma)).map Symbol.taken

/-- A symbol that is no pragma is taken for what the parser takes it. -/
theorem bareSymbols_cons {t : Symbol} (ht : t.token ≠ .pragma) (others : List Symbol) :
    bareSymbols (t :: others) = t.taken :: bareSymbols others := by
  simp [bareSymbols, ht]

/-- Passing pragmas changes nothing where there are none. -/
theorem bareSymbols_withoutPragmas (ahead : List Symbol) : bareSymbols (withoutPragmas ahead) = bareSymbols ahead := by
  induction ahead with
  | nil => rfl
  | cons t others ih =>
    by_cases ht : t.token = .pragma
    · have hskips : withoutPragmas (t :: others) = withoutPragmas others := by simp [withoutPragmas, ht]
      rw [hskips, ih]
      simp [bareSymbols, ht]
    · have hstays : withoutPragmas (t :: others) = t :: others := by simp [withoutPragmas, ht]
      rw [hstays]

/-- The first symbol is the one that the parser sees. -/
theorem firstToken_bareSymbols {ahead : List Symbol} (h : firstToken ahead ≠ .pragma) :
    firstToken (bareSymbols ahead) = (firstToken ahead).wellFormed := by
  cases ahead with
  | nil => rfl
  | cons t others =>
    have ht : t.token ≠ .pragma := h
    rw [bareSymbols_cons ht]
    rfl

/-! ## Runs -/

/-- A settled state, of which the symbols ahead that are no pragmas are known. -/
structure ParserState.Bears (s : ParserState) (v : Tray) : Prop where
  ready : s.Ready
  settled : firstToken s.reader.ahead ≠ .pragma
  ahead : bareSymbols s.reader.ahead = v.ahead

/-- Whether an error was reported or a node lost. -/
def ParserState.Fails (s : ParserState) : Prop := 0 < s.reader.reporter.errorCount ∨ 0 < s.dropped

/-- A parse that has failed does so after every action. -/
theorem Action.fails_perform {α : Type} (action : Action α) {s : ParserState} (h : s.Fails) :
    (action.perform s).2.Fails := by
  have hgrows := action.perform_grows s
  obtain herror | hdropped := h
  · exact .inl (herror.trans_le hgrows.reported)
  · obtain ⟨more, -, hmore⟩ := hgrows.logged
    exact .inr (by omega)

/-- What an action does to the names, as long as nothing is reported or lost. -/
theorem Action.follows_carrying {α : Type} (action : Action α) {s : ParserState} {v : Tray} {Q : α → Tray → Prop}
    (hs : s.Bears v) (hQ : carrying.act action v Q) :
    (action.perform s).2.Fails ∨ ∃ w, (action.perform s).2.Bears w ∧ Q (action.perform s).1 w := by
  obtain ⟨hready, hleaves⟩ := action.perform_leaves hs.ready
  have hsame : action.accepts = false → (action.perform s).2.Bears v := fun haccepts => by
    have hahead := ahead_perform haccepts hs.ready hs.settled
    exact ⟨hready, by rw [hahead]; exact hs.settled, by rw [hahead]; exact hs.ahead⟩
  cases action with
  | lookahead =>
    refine .inr ⟨v, hsame rfl, ?_⟩
    rw [lookahead_of_settled hs.ready hs.settled, ← firstToken_bareSymbols hs.settled, hs.ahead]
    exact hQ
  | qualifies =>
    refine .inr ⟨v, hsame rfl, hQ _ fun hb => ?_⟩
    rw [qualifies_of_settled hs.ready hs.settled] at hb
    obtain ⟨hdot, hident⟩ := of_decide_eq_true hb
    obtain ⟨t, u, others, hsymbols⟩ : ∃ t u others, s.reader.ahead = t :: u :: others := by
      cases hsymbols : s.reader.ahead with
      | nil => simp [hsymbols] at hdot
      | cons t others =>
        cases others with
        | nil => simp [hsymbols] at hident
        | cons u others => exact ⟨t, u, others, rfl⟩
    rw [hsymbols] at hdot hident
    have ht : t.token = .dot := hdot
    have hu : u.token = .ident := hident
    rw [← hs.ahead, hsymbols, bareSymbols_cons (by simp [ht]), bareSymbols_cons (by simp [hu])]
    exact ⟨by simp [Symbol.taken, ht, Token.wellFormed], by simp [Symbol.taken, hu, Token.wellFormed]⟩
  | accept =>
    obtain ⟨hahead, hlexeme⟩ := hleaves
    have htail : bareSymbols s.reader.ahead.tail = v.ahead.tail := by
      rw [← hs.ahead]
      cases hsymbols : s.reader.ahead with
      | nil => rfl
      | cons t others =>
        have ht : t.token ≠ .pragma := by simpa [hsymbols] using hs.settled
        rw [bareSymbols_cons ht]
        rfl
    refine .inr ⟨⟨v.ahead.tail, firstToken v.ahead⟩, ⟨hready, ?_, ?_⟩, hQ _ fun t ht => ?_⟩
    · rw [hahead]
      exact firstToken_withoutPragmas _
    · rw [hahead, bareSymbols_withoutPragmas, htail]
    · rw [← hs.ahead] at ht
      cases hsymbols : s.reader.ahead with
      | nil => simp [hsymbols, bareSymbols] at ht
      | cons first others =>
        have hfirst : first.token ≠ .pragma := by simpa [hsymbols] using hs.settled
        rw [hsymbols, bareSymbols_cons hfirst, List.head?_cons, Option.mem_some] at ht
        rw [← ht]
        exact hlexeme first (by rw [hsymbols]; rfl)
  | reject expected | rejectClosing closing => exact .inl (.inl (errorCount_report_pos s rfl))
  | enter p | warnNext code | warnAccepted code | skipped n => exact .inr ⟨v, hsame rfl, hQ⟩
  | build node =>
    cases node with
    | ok node => exact .inr ⟨v, hsame rfl, by rw [hleaves.2]; exact hQ⟩
    | error e =>
      obtain ⟨-, hdropped, -⟩ | ⟨herror, -, -⟩ := perform_error e s
      · exact .inl (.inr (by omega))
      · exact .inl (.inl (herror.trans_le ((build (.error e)).perform_grows s).reported))

/-- A run in which nothing is reported or lost takes the names that are read off its result. -/
theorem Script.Advances.carries {ctx : Context} {limit : Nat} {α : Type} {script : Script α} {a : α}
    {s s' : ParserState} {v : Tray} {known : Tray → Prop} {R : α → List String} {E : α → Tray → Prop}
    (h : Advances (Rule.body ctx) limit script s a s') (hs : s.Bears v) (hv : known v)
    (hcarries : Carries known [] script R E) :
    s'.Fails ∨ ∃ w, s'.Bears w ∧ v.names = R a ++ w.names ∧ E a w := by
  have hcall : ∀ (rule : Rule) (v : Tray) (Q : Node → Tray → Prop), carrying.call rule v Q →
      (rule.body ctx).Ensures carrying v Q :=
    fun rule v Q hQ => (Carries.body ctx rule v hQ.1).mono fun node w hw => hQ.2 node w hw.1 hw.2
  exact Ensures.holds (fun action s v Q => action.follows_carrying) (fun action s => action.fails_perform) hcall h hs
    (hcarries v hv)

/-! ## Texts -/

/-- When a settled state has only pragmas ahead, it has nothing ahead. -/
theorem ParserState.Bears.at_end {s : ParserState} {v : Tray} (hs : s.Bears v) (hend : firstToken v.ahead = .eof) :
    v.ahead = [] := by
  rw [← hs.ahead, firstToken_bareSymbols hs.settled, wellFormed_eq_iff (by simp)] at hend
  rw [← hs.ahead, (hs.ready.ends.at_end hend).1]
  rfl

/-- At the start a parse bears all symbols of the text. -/
theorem bears_start {o : Options} {s : Source} (hlength : s.rest.length ≤ s.length) :
    (ParserState.start o (.ofSource o s)).settle.Bears ⟨bareSymbols (Scan.body o.scanRules s), .unknown⟩ := by
  obtain ⟨hready, hahead⟩ := (ready_start (o := o) hlength).settle
  have hsymbols : (ParserState.start o (.ofSource o s)).reader.ahead = Scan.body o.scanRules s :=
    Scan.ahead_ofSource hlength
  rw [hsymbols] at hahead
  refine ⟨hready, ?_, ?_⟩
  · rw [hahead]
    exact firstToken_withoutPragmas _
  · rw [hahead, bareSymbols_withoutPragmas]

/-- Without faults the names are those of the symbols scanned. -/
theorem namesAfter_taken {rules : ScanRules} {s : Source} (hlength : s.rest.length ≤ s.length)
    (hfaults : ∀ t ∈ Scan.symbols rules s, Scan.Faultless t.faults) :
    namesAfter .unknown (bareSymbols (Scan.body rules s)) = namesOf (Scan.body rules s) := by
  have htoken : ∀ t : Symbol, decide (t.taken.token ≠ .pragma) = decide (t.token ≠ .pragma) := by
    intro t
    have hpragma : t.token.wellFormed = .pragma ↔ t.token = .pragma := by cases t.token <;> simp [Token.wellFormed]
    simp [Symbol.taken, hpragma]
  have hsame : bareSymbols (Scan.body rules s) = ((Scan.body rules s).map Symbol.taken).filter (·.token ≠ .pragma) := by
    rw [List.filter_map, bareSymbols]
    exact congrArg _ (List.filter_congr fun t _ => (htoken t).symm)
  rw [hsame, Scan.taken_body hlength hfaults, namesOf]

/-- For every text that is parsed, as a unit of either kind and under all options, without errors and without losing
nodes: the values in the tree of the module, read from left to right, are the identifiers and literals of the text in
the order in which they stand there, without the identifiers that repeat the names of modules and procedures at their
ends. -/
theorem reading_module (o : Options) (kind : UnitKind) (filename text : String) (s : Source)
    (h : Source.ofText filename text = .ok s) (herrors : (parse o kind s).errorCount = 0)
    (hdropped : (parse o kind s).dropped = 0) :
    ∃ module : Node, (parse o kind s).module? = some module ∧ module.reading = namesOf (Scan.body o.scanRules s) := by
  have hlength := Source.length_rest_le h
  obtain ⟨-, hroot⟩ := root_parse hlength herrors
  refine ⟨_, by rw [Outcome.module?, hroot]; rfl, ?_⟩
  have hfinal : (parseSymbols o kind (.ofSource o s)).2.reader.reporter.errorCount = 0 := herrors
  have hkept : (parseSymbols o kind (.ofSource o s)).2.dropped = 0 := hdropped
  have hopen : Tray.Open ⟨bareSymbols (Scan.body o.scanRules s), .unknown⟩ := by simp [Tray.Open]
  obtain hfails | ⟨w, hw, hnames, hend⟩ := (parseSymbols_advances_settled o kind hlength).carries (bears_start hlength)
    hopen (Script.Carries.unit o.context kind)
  · obtain herror | hlost := hfails <;> omega
  have hnone : w.names = [] := by rw [Tray.names, hw.at_end hend, namesAfter]
  rw [← namesAfter_taken hlength (faultless_parse hlength herrors)]
  rw [hnone, List.append_nil] at hnames
  exact hnames.symm

/-- A program with two names that are repeated and a pragma before one of them. -/
theorem reading_module_procedure :
    ∃ s, Source.ofText "m" "MODULE M; PROCEDURE P; BEGIN x := y[1] END P; END <* m *> M." = .ok s ∧
      (parse .standard .implementation s).errorCount = 0 ∧ (parse .standard .implementation s).dropped = 0 ∧
      ∃ module : Node, (parse .standard .implementation s).module? = some module ∧
        module.reading = ["M", "P", "x", "y", "1"] := by
  have h : Source.ofText "m" "MODULE M; PROCEDURE P; BEGIN x := y[1] END P; END <* m *> M." =
      .ok (.ofNormalized "m" "MODULE M; PROCEDURE P; BEGIN x := y[1] END P; END <* m *> M.".toList) := by rfl
  have herrors : (parse .standard .implementation (.ofNormalized "m"
      "MODULE M; PROCEDURE P; BEGIN x := y[1] END P; END <* m *> M.".toList)).errorCount = 0 := by decide
  have hdropped : (parse .standard .implementation (.ofNormalized "m"
      "MODULE M; PROCEDURE P; BEGIN x := y[1] END P; END <* m *> M.".toList)).dropped = 0 := by decide
  have hnames : namesOf (Scan.body Options.standard.scanRules (.ofNormalized "m"
      "MODULE M; PROCEDURE P; BEGIN x := y[1] END P; END <* m *> M.".toList)) = ["M", "P", "x", "y", "1"] := by
    decide
  obtain ⟨module, hmodule, hreading⟩ := reading_module .standard .implementation _ _ _ h herrors hdropped
  exact ⟨_, h, herrors, hdropped, module, hmodule, hreading.trans hnames⟩

end Modula
