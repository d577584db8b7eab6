import Modula.Proofs.Grammar.Separators
import Modula.Proofs.Parser.Descent
import Modula.Proofs.Parser.Layout
import Modula.Proofs.Scan.Blanking
import Modula.Proofs.Source.LineTable

/-!
# A missing semicolon between two statements

Where a semicolon between two statements is replaced by a blank, the parse reports that it is missing, at the first symbol
of the second statement, and goes on as if it were there: the module is the same, and nothing else is reported
(`missing_semicolon`). An identifier after a `RETURN` without a value would become its value, so that is the one place
where the semicolon cannot be missed.
-/

set_option autoImplicit false

namespace Modula

open SymbolReader ParserState Scan

/-! ## Source lines -/

/-- A diagnostic about a source as it is reported: with the line that it points at, if source lines are shown. -/
def Diagnostic.shownIn (o : Options) (s : Source) (d : Diagnostic) : Diagnostic :=
  { d with sourceLine := (SymbolReader.unread o s).reporter.echo d }

section

variable {o : Options} {kind : UnitKind} {s t : Source}

/-- All diagnostics of a parse are reported in this way. -/
theorem shownIn_parse (hlength : s.rest.length ≤ s.length) :
    (parse o kind s).diagnostics.map (·.shownIn o s) = (parse o kind s).diagnostics := by
  have hstart : Emits (unread o s) (ofSource o s) := by
    rw [← read_unread]
    exact emits_read _
  obtain ⟨ds, hds⟩ : Emits (unread o s) (parseSymbols o kind (.ofSource o s)).2.reader :=
    (parseSymbols_completes o kind hlength).advances.stays (P := fun u => Emits (unread o s) u.reader)
      (fun action u hu => hu.trans (action.perform_emits u)) hstart
  have hall : (parse o kind s).diagnostics = ds.map (·.shownIn o s) := by
    have hdiagnostics := (unread o s).reporter.diagnostics_emitAll_eq ds
    rw [← hds] at hdiagnostics
    exact hdiagnostics
  rw [hall, List.map_map]
  rfl

/-- Diagnostics that are the same but for source lines are the same when they are shown. -/
theorem perm_shownIn (hlength : t.rest.length ≤ t.length) {ds : List Diagnostic}
    (h : ((parse o kind t).diagnostics.map Diagnostic.withoutLine).Perm (ds.map .withoutLine)) :
    (parse o kind t).diagnostics.Perm (ds.map (·.shownIn o t)) := by
  have hshown := h.map (·.shownIn o t)
  rw [List.map_map, List.map_map] at hshown
  have hsame : (fun d : Diagnostic => d.shownIn o t) ∘ Diagnostic.withoutLine = fun d => d.shownIn o t := rfl
  rw [hsame, shownIn_parse hlength] at hshown
  exact hshown

/-! ## The start of a parse -/

/-- The last symbol of all is the last one scanned. -/
theorem last_ofSource_eq (o : Options) (s : Source) :
    (ofSource o s).last = (((Scan.symbols o.scanRules s).map (·.symbol)).getLast?).getD .initial := by
  rw [← read_unread, last_read, List.getLast?_map]
  rfl

/-- A reader of a source reports the faults of all symbols, sooner or later. -/
theorem reportsIn_ofSource {view : Diagnostic → Diagnostic} (hview : Diagnostic.HidesLines view) (o : Options)
    (s : Source) :
    (ofSource o s).reportsIn view = ((Scan.symbols o.scanRules s).flatMap (·.faults)).map view := by
  rw [← read_unread, reportsIn_read hview, List.map_flatMap]
  rfl

/-! ## Two texts -/

/-- Two sources with the same symbols, but for a semicolon of the first one; the same is reported of them. -/
structure LacksSemicolon (o : Options) (s t : Source) (front : List Symbol) (semicolon : Symbol) (back : List Symbol) :
    Prop where
  length : s.rest.length ≤ s.length
  length' : t.rest.length ≤ t.length
  body : Scan.body o.scanRules s = front ++ semicolon :: back
  body' : Scan.body o.scanRules t = front ++ back
  last : ((Scan.symbols o.scanRules s).map (·.symbol)).getLast? = ((Scan.symbols o.scanRules t).map (·.symbol)).getLast?
  faults : (Scan.symbols o.scanRules s).flatMap (·.faults) = (Scan.symbols o.scanRules t).flatMap (·.faults)

/-- At the start of the two parses, the seam is ahead. -/
theorem LacksSemicolon.before {σ : Seam o.context} {front : List Symbol}
    (h : LacksSemicolon o s t front σ.semicolon σ.after) (hends : ∃ u ∈ (bare front).getLast?, u.token = σ.last) :
    σ.Before (withoutPragmas front) (ParserState.start o (.ofSource o s)).settle
      (ParserState.start o (.ofSource o t)).settle := by
  have hfront : bare front ≠ [] := by
    obtain ⟨u, hu, -⟩ := hends
    rintro hnil
    rw [hnil] at hu
    cases hu
  have hahead : ∀ {u : Source}, u.rest.length ≤ u.length →
      (ParserState.start o (.ofSource o u)).settle.reader.ahead = withoutPragmas (Scan.body o.scanRules u) :=
    fun hu => (ready_start hu).settle.2.trans (congrArg _ (Scan.ahead_ofSource hu))
  have hlast : ∀ u : Source, (ParserState.start o (.ofSource o u)).settle.reader.last =
      ((Scan.symbols o.scanRules u).map (·.symbol)).getLast?.getD .initial :=
    fun u => (last_skipPragmas _).trans (last_ofSource_eq o u)
  have hreports : ∀ u : Source, (ParserState.start o (.ofSource o u)).settle.reader.reportsIn Diagnostic.withoutLine =
      ((Scan.symbols o.scanRules u).flatMap (·.faults)).map .withoutLine := by
    intro u
    rw [← reportsIn_ofSource Diagnostic.hidesLines_withoutLine o u]
    exact reportsIn_skipPragmas Diagnostic.hidesLines_withoutLine _
  refine ⟨⟨(ready_start h.length).settle.1, (ready_start h.length').settle.1, ?_, ?_, ?_, rfl, ?_⟩, ?_, ?_, ?_, rfl⟩
  · rw [hahead h.length]
    exact firstToken_withoutPragmas _
  · rw [hahead h.length']
    exact firstToken_withoutPragmas _
  · rw [hlast, hlast, h.last]
  · rw [hreports, hreports, h.faults]
    rfl
  · rw [hahead h.length, h.body, withoutPragmas_append hfront]
  · rw [hahead h.length', h.body', withoutPragmas_append hfront]
  · rwa [bare_withoutPragmas]

/-- The parse of the text without the semicolon yields the same module, and reports one thing more. -/
theorem LacksSemicolon.parse {σ : Seam o.context} {front : List Symbol}
    (h : LacksSemicolon o s t front σ.semicolon σ.after) (hends : ∃ u ∈ (bare front).getLast?, u.token = σ.last)
    (hinside : 0 < depthOf 0 (bare front)) (hzero : (parse o kind s).errorCount = 0) :
    (parse o kind t).module? = (parse o kind s).module? ∧
      (parse o kind t).diagnostics.Perm ((σ.report :: (parse o kind s).diagnostics).map (·.shownIn o t)) := by
  have hbefore := h.before hends
  have hstart : σ.Inside 0 _ _ := ⟨_, hbefore, by rwa [bare_withoutPragmas]⟩
  have hruns : ∀ limit, σ.Approaches limit 0 0 (fun _ => True) (Script.unit o.context kind) :=
    fun _ => Seam.approaches_unit kind
  obtain ⟨hmodule, ⟨front', hstill, -⟩ | hafter⟩ := hruns _ (parseSymbols_advances_settled o kind h.length)
    (parseSymbols_advances_settled o kind h.length') hzero hstart trivial
  · -- the parse has come to the end of the text
    have hnil := hstill.ready.ends.ahead_eq_nil_iff.mpr (at_end_parse h.length hzero).1
    have hahead : (parseSymbols o kind (.ofSource o s)).2.reader.ahead = front' ++ σ.semicolon :: σ.after := hstill.ahead
    simp [hahead] at hnil
  · obtain ⟨heof, hunseen⟩ := at_end_parse h.length hzero
    have hnil := hafter.ready.ends.ahead_eq_nil_iff.mpr heof
    have hahead : (parseSymbols o kind (.ofSource o s)).2.reader.ahead =
        (parseSymbols o kind (.ofSource o t)).2.reader.ahead := hafter.ahead
    have heof' := hafter.ready'.ends.ahead_eq_nil_iff.mp (hahead.symm.trans hnil)
    have hunseen' := hafter.ready'.ends.unseen_eq_nil heof'
    have hreports : ((parseSymbols o kind (.ofSource o t)).2.reader.reportsIn Diagnostic.withoutLine).Perm
        ([σ.report] ++ (parseSymbols o kind (.ofSource o s)).2.reader.reportsIn .withoutLine) := hafter.reports
    rw [reportsIn, reportsIn, hunseen, hunseen', List.flatMap_nil, List.append_nil, List.append_nil] at hreports
    refine ⟨by rw [module?_parse, module?_parse, hmodule], perm_shownIn h.length' ?_⟩
    exact hreports

/-- A text with a blank in place of a semicolon lacks this semicolon and nothing else. -/
theorem lacksSemicolon_blanking {filename : String} {x rest : List Char} {front back : List Symbol} {semicolon : Symbol}
    (hfaultless : ∀ u ∈ Scan.symbols o.scanRules (.ofNormalized filename (x ++ ';' :: rest)), Faultless u.faults)
    (hbody : Scan.body o.scanRules (.ofNormalized filename (x ++ ';' :: rest)) = front ++ semicolon :: back)
    (hplace : semicolon.position = placeAfter x) :
    LacksSemicolon o (.ofNormalized filename (x ++ ';' :: rest)) (.ofNormalized filename (x ++ ' ' :: rest)) front
      semicolon back := by
  have hreads := reads_symbols o.scanRules (.ofNormalized filename (x ++ ';' :: rest)) le_rfl
  obtain ⟨found, last, hfound, hplain, heof⟩ := hreads.eq_append
  have hends : ∀ us : List Scanned, (∀ u ∈ us, u.symbol.token ≠ .eof) →
      ((us ++ [last]).map (·.symbol)).takeWhile (·.token ≠ .eof) = us.map (·.symbol) := by
    intro us hus
    rw [List.map_append, List.takeWhile_append_of_pos (by simpa using hus)]
    simp [heof]
  rw [Scan.body, hfound, hends found hplain] at hbody
  -- something comes after the semicolon, if only the end of the input
  obtain ⟨us, others, rfl, rfl, hothers⟩ := List.map_eq_append_iff.mp hbody
  obtain ⟨a, vs, rfl, rfl, rfl⟩ := List.map_eq_cons_iff.mp hothers
  obtain ⟨b, ws, hb⟩ := List.exists_cons_of_ne_nil (List.concat_ne_nil last vs)
  have hall : us ++ a :: vs ++ [last] = us ++ a :: b :: ws := by rw [List.append_assoc, List.cons_append, hb]
  rw [hall] at hfound
  rw [hfound] at hreads hfaultless
  have hblank := hreads.blanking (t := .ofNormalized filename (x ++ ' ' :: rest))
    (fun u hu => hfaultless u (List.mem_append_left _ hu)) rfl (hplace.trans (afterAll_eq_placeAfter x).symm) rfl rfl
  have hfound' := (reads_symbols o.scanRules (.ofNormalized filename (x ++ ' ' :: rest)) le_rfl).unique hblank
  have hsymbols : (Scan.symbols o.scanRules (.ofNormalized filename (x ++ ' ' :: rest))).map (·.symbol) =
      ((us ++ vs) ++ [last]).map (·.symbol) := by
    rw [hfound', List.append_assoc, hb]
    simp
  refine ⟨le_rfl, le_rfl, ?_, ?_, ?_, ?_⟩
  · rw [Scan.body, hfound, ← hall, hends _ hplain, List.map_append, List.map_cons]
  · have hplain' : ∀ u ∈ us ++ vs, u.symbol.token ≠ .eof :=
      fun u hu => hplain u (((List.sublist_cons_self a vs).append_left us).mem hu)
    rw [Scan.body, hsymbols, hends _ hplain', List.map_append]
  · rw [hsymbols, hfound, ← hall]
    simp only [List.map_append, List.map_singleton, List.getLast?_concat]
  · rw [hfound, hfound']
    simp

end

/-- A text is accepted with a blank in place of a semicolon, if it is accepted. -/
theorem Source.ofText_blanking {filename before after : String} {s : Source}
    (h : ofText filename (before ++ ";" ++ after) = .ok s) :
    s = .ofNormalized filename (LineEnds.normalize before.toList ++ ';' :: LineEnds.normalize after.toList) ∧
      ofText filename (before ++ " " ++ after) =
        .ok (.ofNormalized filename (LineEnds.normalize before.toList ++ ' ' :: LineEnds.normalize after.toList)) := by
  have hnormalize : ∀ c : Char, c ≠ '\r' → c ≠ '\n' → LineEnds.normalize (before ++ String.singleton c ++ after).toList =
      LineEnds.normalize before.toList ++ c :: LineEnds.normalize after.toList := by
    intro c hreturn hline
    rw [← LineEnds.normalize_middle _ _ hreturn hline]
    simp
  have hsemicolon : LineEnds.normalize (before ++ ";" ++ after).toList = _ := hnormalize ';' (by decide) (by decide)
  have hblank : LineEnds.normalize (before ++ " " ++ after).toList = _ := hnormalize ' ' (by decide) (by decide)
  have hsize : (before ++ " " ++ after).utf8ByteSize = (before ++ ";" ++ after).utf8ByteSize := by
    simp only [String.utf8ByteSize_append]
    rfl
  have hcount := Lines.count_replace (LineEnds.normalize before.toList) (LineEnds.normalize after.toList)
    (show ';' ≠ '\n' by decide) (show ' ' ≠ '\n' by decide)
  refine ⟨by rw [← hsemicolon, ← eq_ofNormalized h], ?_⟩
  unfold ofText at h ⊢
  rw [hsemicolon] at h
  rw [hblank, hsize]
  dsimp only [ofNormalized] at h ⊢
  rw [← hcount]
  split at h
  · cases h
  · next hfits =>
    rw [if_neg hfits]
    split at h
    · cases h
    · next hfew => rw [if_neg hfew]

/-- In a text that is parsed without errors, as a unit of either kind and under all options, a semicolon separates two
statements of a sequence, of which not both the first one is a `RETURN` without a value and the second one starts with an
identifier. A blank is put in its place. Then the module stays the same, and the diagnostics are the same but for the source
lines that they show, and one more: at the first symbol of the second statement, which is unexpected, a semicolon is
expected. -/
theorem missing_semicolon (o : Options) (kind : UnitKind) (filename before after : String) (s : Source)
    (h : Source.ofText filename (before ++ ";" ++ after) = .ok s) (hzero : (parse o kind s).errorCount = 0)
    (front back outer first second rest : List Symbol) (semicolon next : Symbol)
    (hbody : Scan.body o.scanRules s = front ++ semicolon :: back) (htoken : semicolon.token = .semicolon)
    (hplace : semicolon.position = placeAfter (LineEnds.normalize before.toList)) (hfront : bare front = outer ++ first)
    (hback : bare back = second ++ rest) (hseparates : o.grammar.Separates kind outer first second rest)
    (hnext : second.head? = some next) (hreturn : first.map (·.token) = [.kwReturn] → next.token ≠ .ident) :
    ∃ s', Source.ofText filename (before ++ " " ++ after) = .ok s' ∧
      (parse o kind s').module? = (parse o kind s).module? ∧
      (parse o kind s').diagnostics.Perm
        (({ code := .unexpectedToken, position := some next.position, lexeme := some next.lexeme,
            token := some next.token, expected := some (.token .semicolon) } :: (parse o kind s).diagnostics).map
          (·.shownIn o s')) := by
  obtain ⟨rfl, haccepted⟩ := Source.ofText_blanking h
  have hlacks := lacksSemicolon_blanking (faultless_parse le_rfl hzero) hbody hplace
  obtain ⟨u, hu, ⟨hdot, hbar⟩, hvalue⟩ := hseparates.ends
  obtain ⟨v, others, rfl, hstarts⟩ := hseparates.starts
  obtain rfl : v = next := Option.some.inj hnext
  -- the place between the two statements, with what the texts have in common there
  let σ : Seam o.context :=
    { semicolon := semicolon
      after := back
      last := u.token
      next := v
      token_semicolon := htoken
      head_after := by rw [hback]; rfl
      starts_next := hstarts
      last_ne_point := hdot
      last_ne_bar := hbar
      next_ne_ident := fun hu => hreturn (hvalue hu) }
  have hends : ∃ w ∈ (bare front).getLast?, w.token = σ.last := by
    refine ⟨u, ?_, rfl⟩
    rw [hfront, List.getLast?_append, Option.mem_def.mp hu]
    rfl
  have hinside : 0 < depthOf 0 (bare front) := by
    rw [hfront]
    exact hseparates.inside
  obtain ⟨hmodule, hreports⟩ := LacksSemicolon.parse (σ := σ) hlacks hends hinside hzero
  exact ⟨_, haccepted, hmodule, hreports⟩

/-- The semicolon between a `RETURN` without a value and an `EXIT` is missing. -/
theorem missing_semicolon_return :
    ∃ s s', Source.ofText "m" ("MODULE M; BEGIN RETURN" ++ ";" ++ " EXIT END M.") = .ok s ∧
      (parse .standard .implementation s).errorCount = 0 ∧
      Source.ofText "m" ("MODULE M; BEGIN RETURN" ++ " " ++ " EXIT END M.") = .ok s' ∧
      (parse .standard .implementation s').module? = (parse .standard .implementation s).module? ∧
      (parse .standard .implementation s').diagnostics.Perm
        (({ code := .unexpectedToken, position := some ⟨1, 25⟩, lexeme := some "EXIT", token := some .kwExit,
            expected := some (.token .semicolon) } :: (parse .standard .implementation s).diagnostics).map
          (·.shownIn .standard s')) := by
  have h : Source.ofText "m" ("MODULE M; BEGIN RETURN" ++ ";" ++ " EXIT END M.") =
      .ok (.ofNormalized "m" "MODULE M; BEGIN RETURN; EXIT END M.".toList) := by rfl
  have hzero : (parse .standard .implementation
      (.ofNormalized "m" "MODULE M; BEGIN RETURN; EXIT END M.".toList)).errorCount = 0 := by decide
  -- with a single statement in place of both, the other symbols stand where they were
  have haround : Source.ofText "m" "MODULE M; BEGIN EXIT         END M." =
      .ok (.ofNormalized "m" "MODULE M; BEGIN EXIT         END M.".toList) := by rfl
  obtain ⟨-, x, closings, hderives, -⟩ := (errorCount_eq_zero_iff .standard .implementation _ _ _ haround (by decide)).mp
    (by decide)
  set outer : List Symbol := [⟨.kwModule, "MODULE", ⟨1, 1⟩⟩, ⟨.ident, "M", ⟨1, 8⟩⟩, ⟨.semicolon, ";", ⟨1, 9⟩⟩,
    ⟨.kwBegin, "BEGIN", ⟨1, 11⟩⟩]
  set rest : List Symbol := [⟨.kwEnd, "END", ⟨1, 30⟩⟩, ⟨.ident, "M", ⟨1, 34⟩⟩, ⟨.dot, ".", ⟨1, 35⟩⟩]
  have hseparates : Options.standard.grammar.Separates .implementation outer [⟨.kwReturn, "RETURN", ⟨1, 17⟩⟩]
      [⟨.kwExit, "EXIT", ⟨1, 25⟩⟩] rest := by
    have hbody : Scan.body Options.standard.scanRules (.ofNormalized "m" "MODULE M; BEGIN EXIT         END M.".toList) =
        outer ++ ⟨.kwExit, "EXIT", ⟨1, 17⟩⟩ :: rest := by decide +kernel
    rw [hbody] at hderives
    exact ⟨⟨"", [], Grammar.derives_return _ rfl⟩, ⟨"", [], Grammar.derives_exit _ rfl⟩,
      ⟨⟨.kwExit, "EXIT", ⟨1, 17⟩⟩, x, closings, rfl, hderives⟩⟩
  have hbody : Scan.body Options.standard.scanRules (.ofNormalized "m" "MODULE M; BEGIN RETURN; EXIT END M.".toList) =
      (outer ++ [⟨.kwReturn, "RETURN", ⟨1, 17⟩⟩]) ++
        ⟨.semicolon, ";", ⟨1, 23⟩⟩ :: (⟨.kwExit, "EXIT", ⟨1, 25⟩⟩ :: rest) := by
    decide +kernel
  obtain ⟨s', haccepted, hmodule, hreports⟩ := missing_semicolon .standard .implementation _ _ _ _ h hzero _ _ outer
    [⟨.kwReturn, "RETURN", ⟨1, 17⟩⟩] [⟨.kwExit, "EXIT", ⟨1, 25⟩⟩] rest _ _ hbody rfl rfl rfl rfl hseparates rfl (by simp)
  exact ⟨_, s', h, hzero, haccepted, hmodule, hreports⟩

end Modula
