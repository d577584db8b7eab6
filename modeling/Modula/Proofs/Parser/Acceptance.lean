import Modula.Proofs.Parser.ModuleRows
import Modula.Proofs.Parser.Reports
import Modula.Proofs.Parser.Settled
import Modula.Proofs.Scan.Faults

/-!
# What the parser accepts

A text is parsed without errors if and only if scanning it finds no error and its tokens are derived by the grammar, with
the names of modules and procedures repeated at their ends (`errorCount_eq_zero_iff`). What scripts take and what they
report is read off their runs here: a run that reports nothing shows a derivation, and a derivation a run that reports
nothing.
-/

set_option autoImplicit false

namespace Modula

open SymbolReader ParserState

/-- The grammar under some options. -/
def Options.grammar (o : Options) : Grammar := ⟨o.context, false⟩

/-- The symbol with the token that the parser takes it for. -/
def Symbol.taken (s : Symbol) : Symbol := { s with token := s.token.wellFormed }

/-- What the parser takes for the first symbol has its token, or the well-formed one. -/
theorem firstToken_map_taken (v : List Symbol) : firstToken (v.map Symbol.taken) = (firstToken v).wellFormed := by
  cases v <;> rfl

/-- A state that may go on, in which the next symbol is no pragma. The symbols ahead that are no pragmas are known, and
those may be all. -/
structure ParserState.Faces (mayHold : Prop) (s : ParserState) (v : List Symbol) : Prop where
  ready : s.Ready
  settled : firstToken s.reader.ahead ≠ .pragma
  ahead : (bare s.reader.ahead).map Symbol.taken = v
  bare : mayHold ∨ ∀ t ∈ s.reader.ahead, t.token ≠ .pragma

/-- The first symbol tells the first token. -/
theorem firstToken_eq_of_head? {u v : List Symbol} (h : u.head? = v.head?) : firstToken u = firstToken v := by
  unfold firstToken
  rw [List.headD_eq_head?_getD, List.headD_eq_head?_getD, h]

/-- The next token is the first one that is known, as the parser takes it. -/
theorem ParserState.Faces.firstToken {m : Prop} {s : ParserState} {v : List Symbol} (hs : s.Faces m v) :
    Modula.firstToken v = (Modula.firstToken s.reader.ahead).wellFormed := by
  rw [← hs.ahead, firstToken_map_taken, firstToken_eq_of_head? (bare_of_settled hs.settled).1]

/-- If a name is seen to go on, it does. -/
theorem ParserState.Faces.qualifies {m : Prop} {s : ParserState} {v : List Symbol} (hs : s.Faces m v)
    (h : Modula.firstToken s.reader.ahead = .dot ∧ Modula.firstToken s.reader.ahead.tail = .ident) :
    Modula.firstToken v = .dot ∧ Modula.firstToken v.tail = .ident := by
  have htail : v.tail = (Modula.bare s.reader.ahead.tail).map Symbol.taken := by
    rw [← hs.ahead, ← List.map_tail, (bare_of_settled hs.settled).2]
  refine ⟨by rw [hs.firstToken, h.1]; rfl, ?_⟩
  rw [htail, firstToken_map_taken, firstToken_eq_of_head? (bare_of_settled (by rw [h.2]; simp)).1, h.2]
  rfl

/-- Where there are no pragmas, it is seen whether a name goes on. -/
theorem ParserState.Faces.qualifies_iff {m : Prop} {s : ParserState} {v : List Symbol} (hs : s.Faces m v)
    (hbare : ∀ t ∈ s.reader.ahead, t.token ≠ .pragma) :
    Modula.firstToken s.reader.ahead = .dot ∧ Modula.firstToken s.reader.ahead.tail = .ident ↔
      Modula.firstToken v = .dot ∧ Modula.firstToken v.tail = .ident := by
  have hall : v = s.reader.ahead.map Symbol.taken := by rw [← hs.ahead, bare_eq_self hbare]
  rw [hall, ← List.map_tail, firstToken_map_taken, firstToken_map_taken, wellFormed_eq_iff (by simp),
    wellFormed_eq_iff (by simp)]

namespace Action

variable {α : Type} {g : Grammar} {m : Prop} {action : Action α} {s : ParserState} {v : List Symbol}
  {Q : α → List Symbol → Prop}

/-- What an action shows of the symbols ahead, it does to the state. It either reports nothing, or rejects. -/
theorem shows_perform (hplain : g.namesSetTypes = false) (hs : s.Faces m v) (hQ : action.shows g m v Q) :
    (m ∧ 0 < (action.perform s).2.reader.reporter.errorCount) ∨
      (action.perform s).2.reader.errors = s.reader.errors ∧
        ∃ w, (action.perform s).2.Faces m w ∧ Q (action.perform s).1 w := by
  obtain ⟨hready, hleaves⟩ := action.perform_leaves hs.ready
  have hsuffix := hleaves.suffix
  have hsettled := action.settled_perform hs.ready hs.settled
  have hfaces : ∀ w, (bare (action.perform s).2.reader.ahead).map Symbol.taken = w → (action.perform s).2.Faces m w :=
    fun w hw => ⟨hready, hsettled, hw, hs.bare.imp_right fun hbare t ht => hbare t (hsuffix.subset ht)⟩
  have hquiet : action.isQuiet = true → (action.perform s).2.reader.errors = s.reader.errors :=
    fun hquiet => (goesOn_perform hquiet s).1.errors
  have hsame : action.accepts = false → (action.perform s).2.Faces m v :=
    fun haccepts => hfaces v (by rw [ahead_perform haccepts hs.ready hs.settled]; exact hs.ahead)
  cases action with
  | lookahead =>
    refine .inr ⟨hquiet rfl, v, hsame rfl, ?_⟩
    rw [lookahead_of_settled hs.ready hs.settled, ← hs.firstToken]
    exact hQ
  | qualifies =>
    refine .inr ⟨hquiet rfl, v, hsame rfl, ?_⟩
    rw [qualifies_of_settled hs.ready hs.settled]
    by_cases hqualifies : Modula.firstToken s.reader.ahead = .dot ∧ Modula.firstToken s.reader.ahead.tail = .ident
    · simpa only [decide_eq_true hqualifies, decide_eq_true (hs.qualifies hqualifies)] using hQ.1
    · rw [decide_eq_false hqualifies]
      obtain hm | hbare := hs.bare
      · exact hQ.2 hm
      · simpa only [decide_eq_false (mt (hs.qualifies_iff hbare).mpr hqualifies)] using hQ.1
  | accept =>
    obtain ⟨hahead, hlexeme⟩ := hleaves
    obtain ⟨hhead, htail⟩ := bare_of_settled hs.settled
    refine .inr ⟨hquiet rfl, v.tail, hfaces _ ?_, ?_⟩
    · rw [hahead, bare_withoutPragmas, ← htail, ← hs.ahead, List.map_tail]
    · refine hQ _ fun t ht => ?_
      rw [← hs.ahead, List.head?_map, hhead, Option.mem_def, Option.map_eq_some_iff] at ht
      obtain ⟨first, hfirst, rfl⟩ := ht
      exact hlexeme first hfirst
  | enter p | skipped n => exact .inr ⟨hquiet rfl, v, hsame rfl, hQ⟩
  | reject expected | rejectClosing closing => exact .inl ⟨hQ, errorCount_report_pos s rfl⟩
  | warnNext code | warnAccepted code => exact .inr ⟨hquiet (by simp [isQuiet, hQ.1]), v, hsame rfl, hQ.2⟩
  | build node =>
    obtain ⟨-, hnode⟩ := hleaves
    cases node with
    | ok node => exact .inr ⟨hquiet rfl, v, hsame rfl, hQ⟩
    | error e =>
      have herrors : ((build (.error e)).perform s).2.reader.errors = s.reader.errors := by
        obtain ⟨-, -, hreader⟩ | ⟨-, -, hgoes⟩ := perform_error e s
        · rw [hreader]
          rfl
        · exact hgoes.errors
      refine .inr ⟨herrors, v, hsame rfl, ?_⟩
      rw [hnode]
      exact hQ.2 (by simp [hplain])

end Action

/-! ## Runs -/

namespace Script

variable {g : Grammar} {limit : Nat} {α : Type} {script : Script α} {a : α} {s s' : ParserState} {v : List Symbol}
  {Q : α → List Symbol → Prop}

/-- A run that reports no error takes what is derived, whether or not there are pragmas. -/
theorem Advances.sounds (hplain : g.namesSetTypes = false) (h : Advances (Rule.body g.context) limit script s a s')
    (hs : s.Faces True v) (hQ : script.Ensures (sounding g) v Q) :
    0 < s'.reader.reporter.errorCount ∨ ∃ w, s'.Faces True w ∧ Q a w := by
  have hact : ∀ {γ : Type} (action : Action γ) (s : ParserState) (v : List Symbol) (Q : γ → List Symbol → Prop),
      s.Faces True v → action.shows g True v Q → 0 < (action.perform s).2.reader.reporter.errorCount ∨
        ∃ w, (action.perform s).2.Faces True w ∧ Q (action.perform s).1 w := by
    intro γ action s v Q hs hQ
    obtain ⟨-, hlost⟩ | ⟨-, hkept⟩ := Action.shows_perform hplain hs hQ
    · exact .inl hlost
    · exact .inr hkept
  have hlost : ∀ {γ : Type} (action : Action γ) (s : ParserState), 0 < s.reader.reporter.errorCount →
      0 < (action.perform s).2.reader.reporter.errorCount :=
    fun action s hs => hs.trans_le (action.perform_grows s).reported
  have hcall : ∀ (rule : Rule) (v : List Symbol) (Q : Node → List Symbol → Prop), (sounding g).call rule v Q →
      (rule.body g.context).Ensures (sounding g) v Q := by
    intro rule v Q hQ
    refine ((Parses.body (x := "") hplain rule).sound v hQ.1).mono fun node u hu => hQ.2 node u ?_
    obtain ⟨m, hm, hnil⟩ := takes_call.mp hu.1
    exact takes_nil.mp hnil ▸ hm
  exact Ensures.holds hact hlost hcall h hs hQ

/-- A run from symbols without faults that takes what is derived reports no error. -/
theorem Advances.accepts (hplain : g.namesSetTypes = false) (h : Advances (Rule.body g.context) limit script s a s')
    (hs : s.Faces False v) (herrors : s.reader.errors = 0) (hQ : script.Ensures (completing g) v Q) :
    s'.reader.errors = 0 := by
  have hact : ∀ {γ : Type} (action : Action γ) (s : ParserState) (v : List Symbol) (Q : γ → List Symbol → Prop),
      (s.Faces False v ∧ s.reader.errors = 0) → action.shows g False v Q → False ∨
        ∃ w, ((action.perform s).2.Faces False w ∧ (action.perform s).2.reader.errors = 0) ∧ Q (action.perform s).1 w := by
    intro γ action s v Q hs hQ
    obtain ⟨hfalse, -⟩ | ⟨herrors, w, hw, hQ⟩ := Action.shows_perform hplain hs.1 hQ
    · exact hfalse.elim
    · exact .inr ⟨w, ⟨hw, herrors.trans hs.2⟩, hQ⟩
  have hcall : ∀ (rule : Rule) (v : List Symbol) (Q : Node → List Symbol → Prop), (completing g).call rule v Q →
      (rule.body g.context).Ensures (completing g) v Q := by
    rintro rule v Q ⟨hready, u, hu, hends, hQ⟩
    have htakes : Takes g.rules "" [.call rule.production] v u := takes_call.mpr ⟨u, hu, takes_nil.mpr rfl⟩
    have hdecides : decides g.context [.call rule.production] (rule.production.ends g.context) = true := by
      rw [decides_call]
      simp [TokenSet.isSubset, TokenSet.union]
    refine ((Parses.body hplain rule).complete _ v u hdecides hready htakes hends).mono ?_
    rintro node w ⟨rfl, -⟩
    exact hQ node
  have hrun := @Ensures.holds _ (completing g) _ _ _ _ _ _ _ _ (fun s v => s.Faces False v ∧ s.reader.errors = 0)
    (fun _ => False) hact (fun _ _ hfalse => hfalse) hcall h Q ⟨hs, herrors⟩ hQ
  obtain hfalse | ⟨w, hw, -⟩ := hrun
  · exact hfalse.elim
  · exact hw.2

end Script

/-! ## Texts -/

/-- The symbols of a source before the end of the input. -/
def Scan.body (rules : ScanRules) (s : Source) : List Symbol :=
  ((Scan.symbols rules s).map (·.symbol)).takeWhile (·.token ≠ .eof)

/-- At the start all symbols but the end are ahead. -/
theorem Scan.ahead_ofSource {o : Options} {s : Source} (h : s.rest.length ≤ s.length) :
    (ofSource o s).ahead = Scan.body o.scanRules s := by
  rw [ahead, pending_ofSource h, Scan.body]

/-- A symbol is without faults if it counts no errors. -/
theorem Scan.faultless_iff {t : Scanned} : Faultless t.faults ↔ t.errors = 0 := by
  simp [Faultless, Scanned.errors, List.countP_eq_zero]

/-- A text counts no errors if none of its symbols has faults. -/
theorem SymbolReader.errors_ofSource_eq_zero {o : Options} {s : Source} :
    (ofSource o s).errors = 0 ↔ ∀ t ∈ Scan.symbols o.scanRules s, Scan.Faultless t.faults := by
  simp [errors_ofSource, Scan.faultless_iff, List.sum_eq_zero_iff_forall_eq_nat]

/-- When the next token is the end of the input, all errors have been reported. -/
theorem ParserState.Faces.at_end {m : Prop} {s : ParserState} {v : List Symbol} (hs : s.Faces m v)
    (hend : Modula.firstToken v = .eof) : v = [] ∧ s.reader.errors = s.reader.reporter.errorCount := by
  rw [hs.firstToken, wellFormed_eq_iff (by simp)] at hend
  obtain ⟨hahead, hunseen⟩ := hs.ready.ends.at_end hend
  refine ⟨by rw [← hs.ahead, hahead]; rfl, ?_⟩
  rw [SymbolReader.errors, hunseen]
  rfl

/-- Symbols without faults are taken for what they are. -/
theorem Scan.taken_body {rules : ScanRules} {s : Source} (h : s.rest.length ≤ s.length)
    (hfaults : ∀ t ∈ Scan.symbols rules s, Scan.Faultless t.faults) :
    (Scan.body rules s).map Symbol.taken = Scan.body rules s := by
  refine (List.map_congr_left fun t ht => ?_).trans (List.map_id _)
  obtain ⟨found, hfound, rfl⟩ := List.mem_map.mp ((List.takeWhile_sublist _).subset ht)
  have hwell := (Scan.reads_symbols rules s h).wellFormed hfaults found hfound
  simp [Symbol.taken, hwell]

section

variable {o : Options} {kind : UnitKind} {s : Source}

/-- At the start a parse faces the symbols of the text. -/
theorem faces_start {m : Prop} (hlength : s.rest.length ≤ s.length)
    (hbare : ∀ t ∈ Scan.symbols o.scanRules s, t.symbol.token ≠ .pragma) :
    (ParserState.start o (.ofSource o s)).Faces m ((Scan.body o.scanRules s).map Symbol.taken) := by
  have hahead : (ParserState.start o (.ofSource o s)).reader.ahead = Scan.body o.scanRules s :=
    Scan.ahead_ofSource hlength
  have hnone : ∀ t ∈ (ParserState.start o (.ofSource o s)).reader.ahead, t.token ≠ .pragma := by
    intro t ht
    rw [hahead] at ht
    obtain ⟨found, hfound, rfl⟩ := List.mem_map.mp ((List.takeWhile_sublist _).subset ht)
    exact hbare found hfound
  refine ⟨ready_start hlength, ?_, by rw [bare_eq_self hnone, hahead], .inr hnone⟩
  cases hfirst : (ParserState.start o (.ofSource o s)).reader.ahead with
  | nil => simp
  | cons t others => exact hnone t (by rw [hfirst]; exact List.mem_cons_self)

/-- A text that is parsed without errors has none among its symbols, and the grammar derives it. -/
theorem derives_of_errorCount (hlength : s.rest.length ≤ s.length)
    (hbare : ∀ t ∈ Scan.symbols o.scanRules s, t.symbol.token ≠ .pragma) (hzero : (parse o kind s).errorCount = 0) :
    (∀ t ∈ Scan.symbols o.scanRules s, Scan.Faultless t.faults) ∧
      Takes o.grammar.rules "" (Grammar.start kind) (Scan.body o.scanRules s) [] := by
  have hadvances := (parseSymbols_completes o kind hlength).advances
  have hfinal : (parseSymbols o kind (.ofSource o s)).2.reader.reporter.errorCount = 0 := hzero
  obtain hlost | ⟨w, hw, hend, htakes⟩ :=
    hadvances.sounds (g := o.grammar) rfl (faces_start hlength hbare) (Script.Parses.unit kind _).1
  · omega
  · obtain ⟨rfl, hreported⟩ := hw.at_end hend
    have hgrows : (ofSource o s).errors ≤ _ := hadvances.grows.errors
    have hfaults := SymbolReader.errors_ofSource_eq_zero.mp (show (ofSource o s).errors = 0 by omega)
    rw [Scan.taken_body hlength hfaults] at htakes
    exact ⟨hfaults, htakes⟩

/-- A text that has no errors among its symbols and that the grammar derives is parsed without errors. -/
theorem errorCount_of_derives (hlength : s.rest.length ≤ s.length)
    (hbare : ∀ t ∈ Scan.symbols o.scanRules s, t.symbol.token ≠ .pragma)
    (hfaults : ∀ t ∈ Scan.symbols o.scanRules s, Scan.Faultless t.faults) {x : String}
    (htakes : Takes o.grammar.rules x (Grammar.start kind) (Scan.body o.scanRules s) []) :
    (parse o kind s).errorCount = 0 := by
  have hadvances := (parseSymbols_completes o kind hlength).advances
  have hstart := faces_start (m := False) hlength hbare
  rw [Scan.taken_body hlength hfaults] at hstart
  have hfinal := hadvances.accepts (g := o.grammar) rfl hstart (SymbolReader.errors_ofSource_eq_zero.mpr hfaults)
    ((Script.Parses.unit kind _).2 htakes)
  have hreported : (parse o kind s).errorCount ≤ (parseSymbols o kind (.ofSource o s)).2.reader.errors :=
    Nat.le_add_right _ _
  omega

end

/-- A text without pragmas is parsed without errors, as a unit of either kind and under all options, if and only if
scanning it finds no error and the grammar derives its symbols, with each closing identifier as it should be. -/
theorem errorCount_eq_zero_iff (o : Options) (kind : UnitKind) (filename text : String) (s : Source)
    (h : Source.ofText filename text = .ok s)
    (hbare : ∀ t ∈ Scan.symbols o.scanRules s, t.symbol.token ≠ .pragma) :
    (parse o kind s).errorCount = 0 ↔
      (∀ t ∈ Scan.symbols o.scanRules s, Scan.Faultless t.faults) ∧
        ∃ x closings, Derives o.grammar.rules x (Grammar.start kind) (Scan.body o.scanRules s) closings ∧
          ∀ c ∈ closings, c.1 = c.2 := by
  have hlength := Source.length_rest_le h
  constructor
  · intro hzero
    obtain ⟨hfaults, htakes⟩ := derives_of_errorCount hlength hbare hzero
    exact ⟨hfaults, "", takes_all.mp htakes⟩
  · rintro ⟨hfaults, x, hderives⟩
    exact errorCount_of_derives hlength hbare hfaults (takes_all.mpr hderives)

/-- A program whose statements end in one semicolon more is derived, since it is parsed without errors. -/
theorem errorCount_eq_zero_iff_semicolon :
    ∃ s, Source.ofText "m" "MODULE M; BEGIN x := 1; END M." = .ok s ∧
      (∀ t ∈ Scan.symbols Options.standard.scanRules s, t.symbol.token ≠ .pragma) ∧
      ∃ x closings, Derives Options.standard.grammar.rules x (Grammar.start .implementation)
        (Scan.body Options.standard.scanRules s) closings ∧ ∀ c ∈ closings, c.1 = c.2 := by
  have h : Source.ofText "m" "MODULE M; BEGIN x := 1; END M." =
      .ok (.ofNormalized "m" "MODULE M; BEGIN x := 1; END M.".toList) := by rfl
  have hbare : ∀ t ∈ Scan.symbols Options.standard.scanRules
      (.ofNormalized "m" "MODULE M; BEGIN x := 1; END M.".toList), t.symbol.token ≠ .pragma := by decide
  have hzero : (parse .standard .implementation
      (.ofNormalized "m" "MODULE M; BEGIN x := 1; END M.".toList)).errorCount = 0 := by decide
  exact ⟨_, h, hbare, ((errorCount_eq_zero_iff .standard .implementation _ _ _ h hbare).mp hzero).2⟩

end Modula
