import Modula.Proofs.Reader.Agreement
import Modula.Proofs.Reader.Revealing
import Modula.Proofs.Scan.Pointing

/-!
# Reports on symbols

When a text has been read to its end, the faults of all symbols have been reported in order and nothing else has. So the
reports with a code that blames a symbol as a whole are in one-to-one correspondence with the symbols to be blamed, and
what is reported of any symbol is told by the symbol and the text after it (`malformed_symbols_reported`).
-/

set_option autoImplicit false

namespace Modula

open Scan

/-! ## Codes that blame a symbol as a whole -/

namespace Code

/-- The codes that blame a symbol as a whole. -/
def ofSymbol : List Code := [.invalidCharacter, .missingSuffix, .missingExponent, .identTooLong]

/-- Whether a code blames a symbol as a whole. -/
def blames : Code → Symbol → Bool
  | .invalidCharacter, u => u.token = .unknown
  | .missingSuffix, u => u.token = .malformedInteger
  | .missingExponent, u => u.token = .malformedReal
  | .identTooLong, u => u.token = .ident && decide (32 < u.lexeme.length)
  | _, _ => false

/-- The report on a symbol that a code blames. -/
def blame (code : Code) (u : Symbol) : Diagnostic :=
  if code = .invalidCharacter then .ofCharacter code u.position (u.lexeme.toList.headD ' ')
  else .ofLexeme code u.position u.lexeme

/-- A symbol is blamed with the code given. -/
theorem code_blame (code : Code) (u : Symbol) : (code.blame u).code = code := by
  unfold blame
  split <;> rfl

/-- A symbol is blamed without a source line. -/
theorem withoutLine_blame (code : Code) (u : Symbol) : (code.blame u).withoutLine = code.blame u := by
  unfold blame
  split <;> rfl

end Code

variable {rules : ScanRules} {text : List Char} {u : Scanned} {own : List Diagnostic} {code : Code}

/-- Of diagnostics with other codes nothing is told. -/
theorem toldOf_eq_nil {keep : Code → Bool} {ds : List Diagnostic} (h : ∀ d ∈ ds, keep d.code = false) :
    toldOf keep ds = [] := by
  have hnone : ds.filter (keep ·.code) = [] := List.filter_eq_nil_iff.mpr fun d hd => by simp [h d hd]
  rw [toldOf, hnone, List.map_nil]

/-- If one code blames a symbol and is reported of it, the reports with any code are as that code says. -/
theorem toldOf_blame {s : Symbol} {c : Code} (h : code.blames s = (c == code)) :
    toldOf (· == code) [c.blame s] = if code.blames s then [code.blame s] else [] := by
  rw [h]
  by_cases hcode : c = code
  · subst hcode
    simp [toldOf, Code.code_blame, Code.withoutLine_blame]
  · simp [toldOf, Code.code_blame, hcode]

/-- Of a symbol itself, a code that blames symbols as a whole is reported once if it blames this one, and else not. -/
theorem Scan.Complaints.toldOf_eq {s : Symbol} {after : List Char} (h : Complaints rules s after own)
    (hcode : code ∈ Code.ofSymbol) :
    toldOf (· == code) own = if code.blames s then [code.blame s] else [] := by
  have hcodes : code = .invalidCharacter ∨ code = .missingSuffix ∨ code = .missingExponent ∨ code = .identTooLong := by
    simpa [Code.ofSymbol] using hcode
  -- other reports have other codes
  have hother : ∀ ds : List Diagnostic,
      (∀ d ∈ ds, d.code = .invalidEscape ∨ d.code = .newlineInString ∨ d.code = .unclosedString ∨
        d.code = .unclosedPragma) → code.blames s = false →
      toldOf (· == code) ds = if code.blames s then [code.blame s] else [] := by
    intro ds hds hblames
    rw [hblames, if_neg (by simp)]
    refine toldOf_eq_nil fun d hd => ?_
    obtain h | h | h | h := hds d hd <;> obtain rfl | rfl | rfl | rfl := hcodes <;> rw [h] <;> rfl
  cases h with
  | @character c htoken hlexeme =>
    have hreport : Diagnostic.ofCharacter .invalidCharacter s.position c = Code.blame .invalidCharacter s := by
      simp [Code.blame, hlexeme]
    rw [hreport]
    exact toldOf_blame (by obtain rfl | rfl | rfl | rfl := hcodes <;> simp [Code.blames, htoken])
  | integer htoken =>
    exact toldOf_blame (c := .missingSuffix)
      (by obtain rfl | rfl | rfl | rfl := hcodes <;> simp [Code.blames, htoken])
  | real htoken =>
    exact toldOf_blame (c := .missingExponent)
      (by obtain rfl | rfl | rfl | rfl := hcodes <;> simp [Code.blames, htoken])
  | ident htoken hlong =>
    exact toldOf_blame (c := .identTooLong)
      (by obtain rfl | rfl | rfl | rfl := hcodes <;> simp [Code.blames, htoken, hlong])
  | @string quote body closing stray ending htoken hquote hlexeme hbody hend hsome =>
    refine hother _ (fun d hd => ?_) ?_
    · obtain hd | hd := List.mem_append.mp hd
      · exact .inl (hbody.code_eq d hd)
      · exact .inr ((hend.code_mem d hd).imp_right .inl)
    · obtain rfl | rfl | rfl | rfl := hcodes <;> simp [Code.blames, htoken]
  | pragma htoken hafter =>
    refine hother _ (by simp [Diagnostic.atPosition]) ?_
    obtain rfl | rfl | rfl | rfl := hcodes <;> simp [Code.blames, htoken]
  | none htoken hident =>
    refine hother _ (by simp) ?_
    simp only [List.mem_cons, List.not_mem_nil, or_false, not_or] at htoken
    obtain rfl | rfl | rfl | rfl := hcodes <;> simp [Code.blames, htoken]
    exact hident

/-- What is listed with a symbol for a code that blames symbols as a whole. -/
theorem Scan.Told.toldOf_eq (h : Told rules text u own) (hcode : code ∈ Code.ofSymbol) :
    toldOf (· == code) u.faults = if code.blames u.symbol then [code.blame u.symbol] else [] := by
  obtain ⟨gap, hfaults, hgap⟩ := h.faults
  obtain ⟨before, after, -, -, hown⟩ := h.complaints
  have hnone : toldOf (· == code) gap = [] := by
    refine toldOf_eq_nil fun d hd => ?_
    have hd := hgap d hd
    have hother : code.ofGap = false := by
      revert hcode
      revert code
      decide
    rw [beq_eq_false_iff_ne]
    rintro rfl
    simp [hd] at hother
  rw [hfaults, toldOf_append, hnone, List.nil_append, hown.toldOf_eq hcode]

/-- The reports with a code that blames symbols as a whole are those on the symbols that it blames, in their order. -/
theorem toldOf_flatMap {symbols : List Scanned} (h : ∀ u ∈ symbols, ∃ own, Told rules text u own)
    (hcode : code ∈ Code.ofSymbol) :
    toldOf (· == code) (symbols.flatMap (·.faults)) =
      ((symbols.map (·.symbol)).filter code.blames).map code.blame := by
  induction symbols with
  | nil => rfl
  | cons u symbols ih =>
    obtain ⟨own, hown⟩ := h u (by simp)
    rw [List.flatMap_cons, toldOf_append, hown.toldOf_eq hcode, ih fun v hv => h v (by simp [hv]), List.map_cons,
      List.filter_cons]
    split <;> rfl

namespace SymbolReader

variable {o : Options} {s : Source} {r : SymbolReader}

/-! ## Reading a text to its end -/

/-- As long as no second symbol is looked at, each read brings one more symbol into view. -/
theorem unseen_iterate_read (h : r.second = none) (n : ℕ) : (SymbolReader.read^[n] r).unseen = r.unseen.drop n := by
  induction n generalizing r with
  | zero => rfl
  | succ n ih =>
    have hread : r.read.unseen = r.unseen.tail := by simp [read, scan_eq, h]
    rw [Function.iterate_succ_apply, ih (second_read r), hread, List.drop_tail]

/-- A reader of a source has read once before anybody reads. -/
theorem iterate_read_ofSource (o : Options) (s : Source) (n : ℕ) :
    SymbolReader.read^[n] (ofSource o s) = SymbolReader.read^[n + 1] (unread o s) := by
  rw [Function.iterate_succ_apply, read_unread]

/-- After as many reads as there are symbols, the faults of all symbols have been reported, and nothing else. -/
theorem reporter_iterate_read {n : ℕ} (hn : (Scan.symbols o.scanRules s).length ≤ n + 1) :
    (SymbolReader.read^[n] (ofSource o s)).reporter =
      (unread o s).reporter.emitAll ((Scan.symbols o.scanRules s).flatMap (·.faults)) := by
  rw [iterate_read_ofSource]
  obtain ⟨seen, hseen, hreporter⟩ := uncovers_iterate_read (unread o s) (n + 1)
  have hunseen : (unread o s).unseen = Scan.symbols o.scanRules s := rfl
  rw [unseen_iterate_read rfl, hunseen, List.drop_eq_nil_of_le hn, List.append_nil] at hseen
  rw [hreporter, hseen]

/-! ## The state of a reader after a scan -/

/-- The second reader comes from the first one by one scan, and its state tells whether an error has been reported with
that. -/
def StateTells (r r' : SymbolReader) : Prop :=
  ∃ emitted, r'.reporter.diagnostics = r.reporter.diagnostics ++ emitted ∧
    (r'.faulty = true ↔ ∃ d ∈ emitted, d.isError = true)

/-- The state of the lexer tells of the symbol that a scan has brought. -/
theorem stateTells_of_scan {r' : SymbolReader} (hreporter : r'.reporter = r.scan.2.reporter)
    (hfaulty : r'.faulty = r.scan.2.faulty) : StateTells r r' := by
  rw [scan_eq] at hreporter hfaulty
  have hreported := congrArg Reporter.diagnostics hreporter
  rw [Reporter.diagnostics_emitAll_eq] at hreported
  -- whether a diagnostic is an error does not depend on its source line
  have hsame : ∀ d : Diagnostic, Diagnostic.isError { d with sourceLine := r.reporter.echo d } = d.isError :=
    fun d => rfl
  exact ⟨_, hreported, by simp [hfaulty, hsame]⟩

/-- Reading scans a symbol unless the second one is already in view. -/
theorem stateTells_read (h : r.second = none) : StateTells r r.read :=
  stateTells_of_scan (by simp [read, h]) (by simp [read, h])

/-- So it does of the second symbol, when it is asked for first. -/
theorem stateTells_peekSecond (h : r.second = none) : StateTells r r.peekSecond.2 :=
  stateTells_of_scan (by simp [peekSecond, h]) (by simp [peekSecond, h])

/-- Reading alone never asks for the second symbol. -/
theorem second_iterate_read (o : Options) (s : Source) (n : ℕ) :
    (SymbolReader.read^[n] (ofSource o s)).second = none := by
  rw [iterate_read_ofSource, Function.iterate_succ_apply']
  exact second_read _

/-- No malformed symbol passes silently. When a text is read, the faults of its symbols are reported, and nothing else.
The reports with a code that blames a symbol as a whole correspond to the symbols that it blames. What is listed with a
symbol besides the faults of the gap before it is told by the symbol and the text after it: nothing for a symbol that is
neither malformed nor invalid, and something for a malformed string. The state after each scan tells whether an error
was reported by it. -/
theorem malformed_symbols_reported (o : Options) {filename text : String} {s : Source}
    (h : Source.ofText filename text = .ok s) :
    let symbols := Scan.symbols o.scanRules s
    let plain := fun n => SymbolReader.read^[n] (ofSource o s)
    (∀ n, symbols.length ≤ n + 1 →
      (plain n).reporter.diagnostics.map Diagnostic.withoutLine =
          (symbols.flatMap (·.faults)).map Diagnostic.withoutLine ∧
        ∀ code ∈ [.invalidCharacter, .missingSuffix, .missingExponent, .identTooLong],
          toldOf (· == code) (plain n).reporter.diagnostics =
            ((symbols.map (·.symbol)).filter code.blames).map code.blame) ∧
      (∀ u ∈ symbols, ∃ own, Told o.scanRules (LineEnds.normalize text.toList) u own ∧
        (u.symbol.token ∉ [.unknown, .malformedInteger, .malformedReal, .malformedString, .ident, .pragma] → own = []) ∧
        (u.symbol.token = .malformedString → own ≠ [])) ∧
      StateTells (unread o s) (plain 0) ∧
      ∀ n, StateTells (plain n) (plain (n + 1)) ∧ StateTells (plain n) (plain n).peekSecond.2 := by
  intro symbols plain
  have htext : TextFrom (LineEnds.normalize text.toList) s.position s.rest := by
    rw [Source.eq_ofNormalized h]
    exact ⟨[], rfl, rfl⟩
  have htold : ∀ u ∈ symbols, ∃ own, Told o.scanRules (LineEnds.normalize text.toList) u own :=
    (reads_symbols o.scanRules s (Source.length_rest_le h)).told htext
  refine ⟨fun n hn => ⟨?_, fun code hcode => ?_⟩, fun u hu => ?_, ?_, fun n => ⟨?_, ?_⟩⟩
  · rw [reporter_iterate_read hn, Reporter.diagnostics_emitAll_eq, List.map_append, List.map_map]
    rfl
  · rw [reporter_iterate_read hn, Reporter.toldOf_emitAll]
    exact toldOf_flatMap htold hcode
  · obtain ⟨own, hown⟩ := htold u hu
    obtain ⟨before, after, -, -, hcomplaints⟩ := hown.complaints
    exact ⟨own, hown, hcomplaints.eq_nil, hcomplaints.ne_nil⟩
  · have hfirst : plain 0 = (unread o s).read := (read_unread o s).symm
    rw [hfirst]
    exact stateTells_read rfl
  · have hnext : plain (n + 1) = (plain n).read := Function.iterate_succ_apply' _ _ _
    rw [hnext]
    exact stateTells_read (second_iterate_read o s n)
  · exact stateTells_peekSecond (second_iterate_read o s n)

/-- A string that its line cuts off, an invalid character and a number without a suffix. -/
theorem malformed_symbols_reported_line :
    ∃ s, Source.ofText "m" "'a\n!0A" = .ok s ∧
      toldOf (· == .invalidCharacter) (SymbolReader.read^[3] (ofSource .standard s)).reporter.diagnostics =
        [.ofCharacter .invalidCharacter ⟨2, 1⟩ '!'] := by
  have h : Source.ofText "m" "'a\n!0A" = .ok (.ofNormalized "m" "'a\n!0A".toList) := by rfl
  obtain ⟨hreported, -⟩ := malformed_symbols_reported .standard h
  refine ⟨_, h, ((hreported 3 (by decide)).2 .invalidCharacter (by simp)).trans ?_⟩
  decide

end SymbolReader

end Modula
