import Modula.Proofs.Parser.Lockstep
import Modula.Proofs.Parser.Outcome
import Modula.Proofs.Scan.Insertion
import Modula.Proofs.Scan.Lossless

/-!
# Pragmas are trivia

A pragma set off by blanks can be put between any two symbols of a text that is parsed without errors: the module stays
the same and nothing more is reported (`pragma_insertion`). The one place where it must not stand is between a point and
an identifier that go on with a qualified identifier (`EndsInName`), which they do only when nothing stands between them;
a field of a record may be selected across a pragma. The texts are read as symbols that look the same to a parse, and so
the parses go on in the same way.
-/

set_option autoImplicit false

namespace Modula

open SymbolReader ParserState Scan

/-! ## Symbols that look the same -/

/-- Two symbols with the same token and the same characters. -/
def Symbol.Same (s t : Symbol) : Prop := s.token = t.token ∧ s.lexeme = t.lexeme

/-- Symbols that are the same have the same first token. -/
theorem firstToken_congr {ahead ahead' : List Symbol} (h : List.Forall₂ Symbol.Same ahead ahead') :
    firstToken ahead = firstToken ahead' := by
  cases h with
  | nil => rfl
  | cons hsame hothers => exact hsame.1

/-- Symbols that are the same look the same. -/
theorem sight_congr (w : Watch) {ahead ahead' : List Symbol} (h : List.Forall₂ Symbol.Same ahead ahead') :
    sight w ahead = sight w ahead' := by
  induction h generalizing w with
  | nil => rfl
  | @cons s t others others' hsame hothers ih =>
    have hpass : w.pass (s :: others) = w.pass (t :: others') :=
      Watch.pass_congr hsame.1 (by rw [hsame.1, firstToken_congr hothers])
    rw [sight, sight, hpass, hsame.1, hsame.2, firstToken_congr hothers, ih, ih]

namespace Watch

/-- The watch once some symbols have been passed that others come after. -/
def passAll (w : Watch) : List Symbol → List Symbol → Watch
  | [], _ => w
  | s :: front, others => (if s.token = .pragma then w else w.pass (s :: (front ++ others))).passAll front others

end Watch

/-- After the same symbols, what looks the same goes on looking the same. -/
theorem sight_append (front others others' : List Symbol) (hfirst : firstToken others = firstToken others') (w : Watch)
    (h : sight (w.passAll front others) others = sight (w.passAll front others) others') :
    sight w (front ++ others) = sight w (front ++ others') := by
  induction front generalizing w with
  | nil => exact h
  | cons s front ih =>
    have hsecond : firstToken (front ++ others) = firstToken (front ++ others') := by
      cases front with
      | nil => exact hfirst
      | cons => rfl
    have hpass : w.pass (s :: (front ++ others)) = w.pass (s :: (front ++ others')) :=
      Watch.pass_congr rfl (by rw [hsecond])
    rw [List.cons_append, List.cons_append, sight, sight, ← hpass, hsecond]
    rw [Watch.passAll] at h
    split
    · next hs => exact ih _ (by simpa [hs] using h)
    · next hs => rw [ih _ (by simpa [hs] using h)]

/-- A pragma between two symbols is not seen, unless the first one is a point and the second one an identifier, and the
parse may ask for it. -/
theorem sight_pragma {w : Watch} {a b pragma : Symbol} (others : List Symbol) (hpragma : pragma.token = .pragma)
    (hplain : ¬(w.asks = true ∧ a.token = .dot ∧ b.token = .ident)) :
    sight w (a :: pragma :: b :: others) = sight w (a :: b :: others) := by
  have hpasses : ∀ (w : Watch) {s : Symbol} (others : List Symbol), s.token = .pragma →
      sight w (s :: others) = sight w others := fun w _ others hs => by rw [sight, if_pos hs]
  by_cases ha : a.token = .pragma
  · rw [hpasses _ _ ha, hpasses _ _ hpragma, hpasses _ _ ha]
  · have hopen : ¬(w.asks = true ∧ a.token = .dot ∧ firstToken (pragma :: b :: others) = .ident) := by simp [hpragma]
    have hplain : ¬(w.asks = true ∧ a.token = .dot ∧ firstToken (b :: others) = .ident) := hplain
    have hpass : w.pass (a :: pragma :: b :: others) = w.pass (a :: b :: others) :=
      Watch.pass_congr rfl (iff_of_false hopen hplain)
    rw [sight_cons w ha, sight_cons w ha, hpass, hpasses _ _ hpragma, decide_eq_false hopen, decide_eq_false hplain]

/-- The end of the input and what follows it are not seen. -/
theorem sight_takeWhile (w : Watch) (symbols : List Symbol) :
    sight w (symbols.takeWhile (·.token ≠ .eof)) = (sight w symbols).takeWhile (·.token ≠ .eof) := by
  induction symbols generalizing w with
  | nil => rfl
  | cons s others ih =>
    have hfirst : firstToken (others.takeWhile (·.token ≠ .eof)) = firstToken others := by
      cases others with
      | nil => rfl
      | cons t others => by_cases ht : t.token = .eof <;> simp [ht]
    simp only [ne_eq, decide_not] at ih hfirst ⊢
    by_cases heof : s.token = .eof
    · simp [heof, sight]
    · by_cases hpragma : s.token = .pragma
      · simp [hpragma, sight, ih]
      · have hpass : w.pass (s :: others.takeWhile fun t => !decide (t.token = .eof)) = w.pass (s :: others) :=
          Watch.pass_congr rfl (by rw [hfirst])
        simp [heof, hpragma, sight, ih, hfirst, hpass]

/-! ## Qualified identifiers -/

/-- Tokens that end in a qualified identifier, or in the first part of one, with pragmas after it. It starts with an
identifier that does not come after a point, and goes on with points that have an identifier right after them. -/
inductive EndsInName : List Token → Prop
  | first {front : List Token} (h : (front.filter (· ≠ .pragma)).getLast? ≠ some .dot) : EndsInName (front ++ [.ident])
  | part {front : List Token} (h : EndsInName front) : EndsInName (front ++ [.dot, .ident])
  | pragma {front : List Token} (h : EndsInName front) : EndsInName (front ++ [.pragma])

/-- The last token but for pragmas is an identifier. -/
theorem EndsInName.getLast? {ts : List Token} (h : EndsInName ts) :
    (ts.filter (· ≠ .pragma)).getLast? = some .ident := by
  induction h with
  | first h => simp
  | part h ih => simp
  | pragma h ih => simpa using ih

/-- A trail comes from the tokens before a symbol. -/
structure Trail.Follows (trail : Trail) (before : List Token) (next : Token) : Prop where
  last : trail.last = .dot ↔ (before.filter (· ≠ .pragma)).getLast? = some .dot
  name : trail.naming = true → trail.last ≠ .dot → EndsInName before
  point : trail.naming = true → trail.last = .dot → next = .ident ∧ ∃ name, before = name ++ [.dot] ∧ EndsInName name

namespace Trail.Follows

variable {trail : Trail} {before : List Token} {t next : Token}

/-- Pragmas do not belong to the trail. -/
theorem pragma (h : trail.Follows before .pragma) (next : Token) : trail.Follows (before ++ [.pragma]) next where
  last := by simpa using h.last
  name hnaming hlast := (h.name hnaming hlast).pragma
  point hnaming hlast := nomatch (h.point hnaming hlast).1

/-- A point that a qualified identifier goes on with does not come after a point. -/
theorem endsInName_of_dot (h : trail.Follows before .dot) (hnaming : trail.naming = true) : EndsInName before :=
  h.name hnaming fun hlast => nomatch (h.point hnaming hlast).1

/-- All other symbols do. -/
theorem after (h : trail.Follows before t) (ht : t ≠ .pragma) (next : Token) :
    (trail.after t.wellFormed next.wellFormed).Follows (before ++ [t]) next where
  last := by
    show t.wellFormed = .dot ↔ _
    rw [wellFormed_eq_iff (by simp)]
    simp [ht]
  name hnaming hlast := by
    obtain ⟨hident, hfirst⟩ | ⟨hdot, -⟩ := naming_after.mp hnaming
    · obtain rfl := (wellFormed_eq_iff (by simp)).mp hident
      by_cases hpoint : trail.last = .dot
      · obtain ⟨-, name, rfl, hname⟩ := h.point (hfirst hpoint) hpoint
        rw [List.append_assoc]
        exact .part hname
      · exact .first (h.last.not.mp hpoint)
    · exact (hlast hdot).elim
  point hnaming hlast := by
    have hdot : t.wellFormed = .dot := hlast
    obtain ⟨hident, -⟩ | ⟨-, hnext, hbefore⟩ := naming_after.mp hnaming
    · rw [hdot] at hident
      cases hident
    · obtain rfl := (wellFormed_eq_iff (by simp)).mp hdot
      exact ⟨(wellFormed_eq_iff (by simp)).mp hnext, before, rfl, h.endsInName_of_dot hbefore⟩

/-- At the start of a parse there have been no tokens. -/
theorem outset (next : Token) : Trail.outset.Follows [] next := ⟨by simp [Trail.outset], nofun, nofun⟩

/-- A watch over names still follows the tokens once some symbols have been passed. -/
theorem passAll (front others : List Symbol) (h : trail.Follows before (firstToken (front ++ others))) :
    ∃ trail', (Watch.names trail).passAll front others = .names trail' ∧
      trail'.Follows (before ++ front.map (·.token)) (firstToken others) := by
  induction front generalizing trail before with
  | nil => exact ⟨trail, rfl, by simpa using h⟩
  | cons s front ih =>
    have h : trail.Follows before s.token := h
    rw [Watch.passAll, List.map_cons, List.append_cons]
    split
    · next hs =>
      rw [hs] at h ⊢
      exact ih (h.pragma _)
    · next hs => exact ih (h.after hs _)

end Trail.Follows

/-! ## Texts that look the same -/

section

variable {o : Options} {kind : UnitKind} {s t : Source}

/-- The end of the input has no characters. -/
theorem Scan.Reads.last_lexeme {rules : ScanRules} {found : List Scanned} (h : Reads rules s found) :
    ∀ last ∈ found.getLast?, last.symbol.lexeme = "" := by
  induction h with
  | last hfinds heof =>
    rintro last ⟨rfl⟩
    exact congrArg Symbol.lexeme (hfinds.splits.of_eof heof).1
  | @more s s' found others hfinds heof less next ih =>
    cases next with
    | last => exact ih
    | more => exact ih

/-- At its end a source has no characters. -/
theorem last_ofSource (hlength : s.rest.length ≤ s.length) : (ofSource o s).last.lexeme = "" := by
  have hlast := (reads_symbols o.scanRules s hlength).last_lexeme
  rw [ofSource, last_start _ _ _ _ (symbols_ne_nil o hlength)]
  exact hlast _ (List.getLast?_eq_some_getLast _)

/-- A reader of a source reports the faults of all symbols, sooner or later. -/
theorem reports_ofSource (o : Options) (s : Source) :
    (ofSource o s).reports = (Scan.symbols o.scanRules s).flatMap fun u => unplacedAll u.faults := by
  rw [← read_unread, reports_read]
  rfl

/-- Two sources whose symbols look the same to a parse without errors, with the same faults. -/
structure LooksLike (o : Options) (s t : Source) : Prop where
  sight : sight (.names .outset) ((Scan.symbols o.scanRules s).map (·.symbol)) =
    sight (.names .outset) ((Scan.symbols o.scanRules t).map (·.symbol))
  faults : ((Scan.symbols o.scanRules s).flatMap fun u => unplacedAll u.faults) =
    (Scan.symbols o.scanRules t).flatMap fun u => unplacedAll u.faults

/-- At the start of sources whose symbols look the same, a parse sees the same. -/
theorem seesAlike_start {w : Watch}
    (h : sight w ((Scan.symbols o.scanRules s).map (·.symbol)) = sight w ((Scan.symbols o.scanRules t).map (·.symbol)))
    (hs : s.rest.length ≤ s.length) (ht : t.rest.length ≤ t.length) :
    (ParserState.start o (.ofSource o s)).settle.SeesAlike w (ParserState.start o (.ofSource o t)).settle := by
  have hahead : ∀ {u : Source}, u.rest.length ≤ u.length →
      (ParserState.start o (.ofSource o u)).settle.reader.ahead = withoutPragmas (Scan.body o.scanRules u) := by
    intro u hu
    rw [(ready_start (o := o) hu).settle.2]
    exact congrArg _ (Scan.ahead_ofSource hu)
  have hlast : ∀ {u : Source}, u.rest.length ≤ u.length →
      (ParserState.start o (.ofSource o u)).settle.reader.last.lexeme = "" := by
    intro u hu
    exact (congrArg Symbol.lexeme (last_skipPragmas _)).trans (last_ofSource hu)
  refine ⟨(ready_start hs).settle.1, (ready_start ht).settle.1, ?_, ?_, ?_, ?_, rfl⟩
  · rw [hahead hs]
    exact firstToken_withoutPragmas _
  · rw [hahead ht]
    exact firstToken_withoutPragmas _
  · rw [hahead hs, hahead ht, sight_withoutPragmas, sight_withoutPragmas, Scan.body, Scan.body, sight_takeWhile,
      sight_takeWhile, h]
  · rw [hlast hs, hlast ht]

/-- At the start of sources that look the same with the same faults, two parses are alike. -/
theorem LooksLike.alike (h : LooksLike o s t) (hs : s.rest.length ≤ s.length) (ht : t.rest.length ≤ t.length) :
    (ParserState.start o (.ofSource o s)).settle.Alike (.names .outset) (ParserState.start o (.ofSource o t)).settle := by
  have hreports : ∀ u : Source, (ParserState.start o (.ofSource o u)).settle.reader.reports =
      (Scan.symbols o.scanRules u).flatMap fun v => unplacedAll v.faults :=
    fun u => (reports_skipPragmas _).trans (reports_ofSource o u)
  refine ⟨seesAlike_start h.sight hs ht, ?_⟩
  rw [hreports, hreports, h.faults]

/-- When all symbols have come into view, the reports are the diagnostics. -/
theorem reports_parse (hunseen : (parseSymbols o kind (.ofSource o s)).2.reader.unseen = []) :
    (parseSymbols o kind (.ofSource o s)).2.reader.reports = (parse o kind s).diagnostics.map Diagnostic.unplaced := by
  rw [SymbolReader.reports, SymbolReader.reportsIn, hunseen]
  exact List.append_nil _

/-- A strict discipline asks for an identifier after a point only behind a qualified identifier, so two parses that see
the same do the same with every action. -/
theorem Action.perform_alike_of_asks {ctx : Context} {D : Discipline ctx} (hstrict : D.strict) {α : Type}
    (action : Action α) {s t : ParserState} {v : AtHand} (hs : s.Sees D v) (h : s.Alike (.names v.toTrail) t)
    (hasks : D.Asks action v) :
    (action.perform s).1 = (action.perform t).1 ∧
      (action.perform s).2.Alike (.names (v.after action (action.perform s).1).toTrail) (action.perform t).2 := by
  have hwatched : action.AsksQualifies → v.naming = true := by
    intro hqualifies
    cases action with
    | qualifies => exact hasks hstrict
    | _ => exact hqualifies.elim
  have htrail : (Watch.names v.toTrail).after action s.reader.ahead =
      .names (v.after action (action.perform s).1).toTrail := by
    cases action with
    | accept =>
      rw [Watch.after, ← hs.next, ← hs.second]
      rfl
    | _ => rfl
  rw [← htrail]
  exact action.perform_alike h hwatched

/-- Texts that look the same are parsed to the same module. If one is parsed without errors, so is the other one, and
the same is reported of both. -/
theorem LooksLike.parse (h : LooksLike o s t) (hs : s.rest.length ≤ s.length) (ht : t.rest.length ≤ t.length)
    (hzero : (parse o kind s).errorCount = 0) :
    (parse o kind t).errorCount = 0 ∧ (parse o kind t).module? = (parse o kind s).module? ∧
      ((parse o kind t).diagnostics.map Diagnostic.unplaced).Perm ((parse o kind s).diagnostics.map .unplaced) := by
  have hsees := (ready_start (o := o) hs).sees_settle (D := exacting o.context) (fun _ _ => trivial) fun _ _ _ => trivial
  have hrun := (parseSymbols_advances_settled o kind hs).careful_lockstep
    (R := fun s t v => s.Alike (.names v.toTrail) t)
    (fun action _ _ _ hsees hst hasks => action.perform_alike_of_asks trivial hsees hst hasks)
    (parseSymbols_advances_settled o kind ht) hsees (h.alike hs ht) ((exacting o.context).ensures_unit kind s)
  obtain ⟨hmodule, w, hend⟩ := hrun.resolve_left fun herror => herror.2.ne' hzero
  have hreports := hend.reports
  rw [reports_parse (at_end_parse hs hzero).2] at hreports
  have hnone : (Modula.parse o kind t).errorCount = 0 := by
    rw [(counts_parse hs).1] at hzero
    rw [(counts_parse ht).1, List.length_eq_zero_iff, List.filter_eq_nil_iff]
    intro d hd
    have hreport : d.unplaced ∈ (parseSymbols o kind (.ofSource o t)).2.reader.reports :=
      List.mem_append_left _ (List.mem_map_of_mem hd)
    obtain ⟨e, he, hsame⟩ := List.mem_map.mp (hreports.mem_iff.mpr hreport)
    have hfine := List.filter_eq_nil_iff.mp (List.length_eq_zero_iff.mp hzero) e he
    rwa [← Diagnostic.isError_unplaced, hsame] at hfine
  rw [reports_parse (at_end_parse ht hnone).2] at hreports
  refine ⟨hnone, ?_, hreports.symm⟩
  rw [Outcome.module?, Outcome.module?, (root_parse hs hzero).2, (root_parse ht hnone).2, hmodule]
  rfl

end

/-- A pragma is put between blanks into the gap after a symbol of a text. Some blanks, comments and disabled sections of
the gap may come before it; it is not put right before a disabled section, which would not start its line any more. -/
inductive InsertsPragma (a : Symbol) : (text text' : List Char) → Prop
  | intro {before gap content rest : List Char} (hplace : a.position = placeAfter before)
      (hgap : Gap false (placeAfter (before ++ a.lexeme.toList)) gap)
      (hsection : ['?', '<'] <+: rest → (placeAfter (before ++ a.lexeme.toList ++ gap)).column ≠ 1)
      (hclosed : ¬['*', '>'] <:+: content ++ ['*']) :
      InsertsPragma a (before ++ a.lexeme.toList ++ gap ++ rest)
        (before ++ a.lexeme.toList ++ gap ++ " <*".toList ++ content ++ "*> ".toList ++ rest)

/-- Symbols with a pragma between two of them look like the symbols without it. -/
theorem looksLike_of_insertion {o : Options} {s t : Source} {front back back' : List Scanned} {a b b' pragma : Scanned}
    (hs : Scan.symbols o.scanRules s = front ++ a :: b :: back)
    (ht : Scan.symbols o.scanRules t = front ++ a :: pragma :: b' :: back') (hpragma : pragma.symbol.token = .pragma)
    (hb : Symbol.Same b.symbol b'.symbol) (hfaults : unplacedAll (pragma.faults ++ b'.faults) = unplacedAll b.faults)
    (hback : List.Forall₂ Scanned.Alike back back')
    (hplain : ¬(a.symbol.token = .dot ∧ b.symbol.token = .ident ∧ EndsInName (front.map (·.symbol.token)))) :
    LooksLike o s t := by
  constructor
  · have hothers : List.Forall₂ Symbol.Same ((b :: back).map (·.symbol)) ((b' :: back').map (·.symbol)) := by
      refine .cons hb ?_
      rw [List.forall₂_map_left_iff, List.forall₂_map_right_iff]
      exact hback.imp fun u v huv => ⟨huv.token, huv.lexeme⟩
    obtain ⟨trail, htrail, hfollows⟩ := (Trail.Follows.outset _).passAll (front.map (·.symbol))
      ((a :: b :: back).map (·.symbol))
    have hfollows : trail.Follows (front.map (·.symbol.token)) a.symbol.token := by
      rwa [List.nil_append, List.map_map] at hfollows
    have hplain' : ¬((Watch.names trail).asks = true ∧ a.symbol.token = .dot ∧ b'.symbol.token = .ident) := by
      rintro ⟨hnaming, ha, hb'⟩
      refine hplain ⟨ha, hb.1.trans hb', ?_⟩
      rw [ha] at hfollows
      exact hfollows.endsInName_of_dot hnaming
    rw [hs, ht, List.map_append, List.map_append]
    refine sight_append (front.map (·.symbol)) ((a :: b :: back).map (·.symbol))
      ((a :: pragma :: b' :: back').map (·.symbol)) rfl _ ?_
    rw [htrail]
    exact (sight_congr _ (.cons ⟨rfl, rfl⟩ hothers)).trans (sight_pragma (a := a.symbol) _ hpragma hplain').symm
  · rw [unplacedAll_append] at hfaults
    simp [hs, ht, faults_of_alike hback, ← hfaults]

/-- In a text that is parsed without errors, as a unit of either kind and under all options, a pragma is put between two
symbols that are not a point and an identifier which go on with a qualified identifier. Then the text is still parsed
without errors and to the same module, and the same is reported, if at other places. -/
theorem pragma_insertion (o : Options) (kind : UnitKind) (filename text text' : String) (s s' : Source)
    (h : Source.ofText filename text = .ok s) (h' : Source.ofText filename text' = .ok s')
    (hzero : (parse o kind s).errorCount = 0) (front back : List Scanned) (a b : Scanned)
    (hsymbols : Scan.symbols o.scanRules s = front ++ a :: b :: back)
    (hinserts : InsertsPragma a.symbol (LineEnds.normalize text.toList) (LineEnds.normalize text'.toList))
    (hplain : ¬(a.symbol.token = .dot ∧ b.symbol.token = .ident ∧ EndsInName (front.map (·.symbol.token)))) :
    (parse o kind s').errorCount = 0 ∧ (parse o kind s').module? = (parse o kind s).module? ∧
      ((parse o kind s').diagnostics.map Diagnostic.unplaced).Perm ((parse o kind s).diagnostics.map .unplaced) := by
  obtain rfl := Source.eq_ofNormalized h
  obtain rfl := Source.eq_ofNormalized h'
  generalize LineEnds.normalize text.toList = cs at hinserts hsymbols hzero ⊢
  generalize LineEnds.normalize text'.toList = cs' at hinserts ⊢
  obtain @⟨before, gap, content, rest, hplace, hgap, hsection, hclosed⟩ := hinserts
  simp only [← afterAll_eq_placeAfter] at hplace hgap hsection
  have hfaultless := faultless_parse le_rfl hzero
  have hreads : Reads o.scanRules _ _ := hsymbols ▸ reads_symbols o.scanRules _ le_rfl
  rw [hsymbols] at hfaultless
  have hfront : ∀ u ∈ front ++ [a], Faultless u.faults := by
    intro u hu
    refine hfaultless u ?_
    rw [List.append_cons]
    exact List.mem_append_left _ hu
  obtain ⟨pragma, b', back', hreads', hpragma, htoken, hlexeme, hfaults, hback⟩ :=
    hreads.insertion (t := .ofNormalized filename _) hfront Nat.one_pos rfl hplace hgap hsection hclosed rfl rfl
  have hsymbols' := (reads_symbols o.scanRules _ le_rfl).unique hreads'
  have hlooks := looksLike_of_insertion hsymbols hsymbols' hpragma ⟨htoken.symm, hlexeme.symm⟩ hfaults hback hplain
  exact hlooks.parse le_rfl le_rfl hzero

/-- A pragma between a point and the field that it selects of a record behind a pointer, after a comment. -/
theorem pragma_insertion_selector :
    ∃ s s', Source.ofText "m" "MODULE M; BEGIN x^.(* one *) y := 1 END M." = .ok s ∧
      Source.ofText "m" "MODULE M; BEGIN x^.(* one *) <* *)* *>  y := 1 END M." = .ok s' ∧
      (parse .standard .implementation s').errorCount = 0 ∧
      (parse .standard .implementation s').module? = (parse .standard .implementation s).module? := by
  have h : Source.ofText "m" "MODULE M; BEGIN x^.(* one *) y := 1 END M." =
      .ok (.ofNormalized "m" "MODULE M; BEGIN x^.(* one *) y := 1 END M.".toList) := by rfl
  have h' : Source.ofText "m" "MODULE M; BEGIN x^.(* one *) <* *)* *>  y := 1 END M." =
      .ok (.ofNormalized "m" "MODULE M; BEGIN x^.(* one *) <* *)* *>  y := 1 END M.".toList) := by rfl
  generalize hsymbols : Scan.symbols Options.standard.scanRules
    (.ofNormalized "m" "MODULE M; BEGIN x^.(* one *) y := 1 END M.".toList) = symbols
  have hsplit : symbols = symbols.take 6 ++ ⟨⟨.dot, ".", ⟨1, 19⟩⟩, []⟩ ::
      ⟨⟨.ident, "y", ⟨1, 30⟩⟩, []⟩ :: symbols.drop 8 := by
    rw [← hsymbols]
    decide
  have hcomment : CommentRest true 1 " one *)".toList :=
    .other rfl (.other rfl (.other rfl (.other rfl (.other rfl .closed))))
  have hinserts : InsertsPragma ⟨.dot, ".", ⟨1, 19⟩⟩ _ _ :=
    @InsertsPragma.intro _ "MODULE M; BEGIN x^".toList "(* one *)".toList " *)* ".toList " y := 1 END M.".toList rfl
      (.comment hcomment .nil) (by decide) (by decide)
  have hfield : ¬EndsInName ((symbols.take 6).map (·.symbol.token)) := by
    intro hname
    have hlast := hname.getLast?
    rw [← hsymbols] at hlast
    revert hlast
    decide
  obtain ⟨hzero, hmodule, -⟩ := pragma_insertion .standard .implementation _ _ _ _ _ h h' (by decide) _ _ _ _
    (hsymbols.trans hsplit) hinserts fun hnamed => hfield hnamed.2.2
  exact ⟨_, _, h, h', hzero, hmodule⟩

end Modula
