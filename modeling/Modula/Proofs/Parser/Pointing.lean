import Modula.Proofs.Parser.Careful
import Modula.Proofs.Parser.Reports
import Modula.Proofs.Reader.Revealing
import Modula.Proofs.Scan.Pointing

/-!
# Diagnostics point at what they name

The positions of diagnostics come from four places: the start of a scan, the reading point within it, the next symbol
and the symbol accepted last. Faults are found by the scanner at what they name, and symbols keep their positions however
far the parser looks ahead; a careful parse reports nothing else (`diagnostics_point`).
-/

set_option autoImplicit false

namespace Modula

open SymbolReader

variable {text : List Char}

/-- A part of a text that stands somewhere, and what it begins with. -/
theorem StandsAt.of_prefix {p : Position} {part start : List Char} (h : StandsAt text p part) (hstart : start <+: part) :
    StandsAt text p start := by
  obtain ⟨before, after, rfl, rfl⟩ := h
  obtain ⟨others, rfl⟩ := hstart
  exact ⟨before, others ++ after, by simp, rfl⟩

/-! ## Readers -/

/-- All reports point at what they name, and so will all that are still to come. -/
structure SymbolReader.Points (text : List Char) (r : SymbolReader) : Prop where
  reports : ∀ d ∈ r.reporter.diagnostics, d.PointsIn text
  unseen : ∀ u ∈ r.unseen, ∀ d ∈ u.faults, d.PointsIn text
  pending : ∀ t ∈ r.pending, t.StandsIn text
  last : r.last.StandsIn text

namespace SymbolReader.Points

variable {r r' : SymbolReader}

/-- The next symbol stands where it says. -/
theorem next (h : r.Points text) : r.next.StandsIn text := h.pending _ List.mem_cons_self

/-- Going on reports faults that point at what they name. -/
theorem reveals (h : r.Points text) (hreveals : Reveals r r') (hpending : ∀ t ∈ r'.pending, t ∈ r.pending ∨ t = r.last)
    (hlast : r'.last = r.last) : r'.Points text where
  reports := hreveals.forall_reports (fun _ _ => Diagnostic.pointsIn_sourceLine.mpr) h.reports h.unseen
  unseen u hu := h.unseen u (hreveals.unseen u hu)
  pending t ht := by
    obtain ht | rfl := hpending t ht
    · exact h.pending t ht
    · exact h.last
  last := hlast ▸ h.last

/-- So do all symbols after one has been read. -/
theorem read (h : r.Points text) : r.read.Points text := by
  refine h.reveals (reveals_read r) (fun t ht => ?_) (last_read r)
  rw [pending_read] at ht
  split at ht
  · exact .inr (List.mem_singleton.mp ht)
  · exact .inl (List.mem_of_mem_tail ht)

/-- And after the second one has been asked for. -/
theorem peekSecond (h : r.Points text) : r.peekSecond.2.Points text := by
  refine h.reveals (reveals_peekSecond r) (fun t ht => ?_) (last_peekSecond r)
  rw [pending_peekSecond] at ht
  split at ht
  · exact (List.mem_append.mp ht).imp_right List.mem_singleton.mp
  · exact .inl ht

/-- A report that points at what it is about may be added. -/
theorem report {d : Diagnostic} (h : r.Points text) (hd : d.PointsIn text) : (r.report d).Points text := by
  refine ⟨fun e he => ?_, h.unseen, h.pending, h.last⟩
  obtain he | ⟨line, rfl⟩ := Reporter.mem_diagnostics_emit he
  · exact h.reports e he
  · exact Diagnostic.pointsIn_sourceLine.mpr hd

end SymbolReader.Points

/-- A reader of a source has its symbols before it, each of which stands where it says. -/
theorem SymbolReader.points_ofSource (o : Options) {s : Source} (hlength : s.rest.length ≤ s.length)
    (hs : TextFrom text s.position s.rest) : (ofSource o s).Points text := by
  have hpoints := (Scan.reads_symbols o.scanRules s hlength).points hs
  have hpending : ∀ t ∈ (ofSource o s).pending, t.StandsIn text := by
    rw [pending_ofSource hlength]
    intro t ht
    obtain ⟨u, hu, rfl⟩ := List.mem_map.mp ht
    exact (hpoints u hu).symbol
  have hlast : (ofSource o s).last ∈ (ofSource o s).pending := by
    obtain ⟨n, hn, -⟩ := (ends_ofSource (o := o) hlength).ends
    simp [hn]
  have hreveals := reveals_ofSource o s
  have hnone : ∀ d ∈ (unread o s).reporter.diagnostics, d.PointsIn text := by simp [unread, Reporter.diagnostics]
  refine ⟨?_, fun u hu => (hpoints u (hreveals.unseen u hu)).faults, hpending, hpending _ hlast⟩
  exact hreveals.forall_reports (fun _ _ => Diagnostic.pointsIn_sourceLine.mpr) hnone fun u hu => (hpoints u hu).faults

/-! ## Parses -/

/-- All reports of a state point at what they name, and unless something has been reported since, the symbol accepted
last stands in the text. -/
structure ParserState.Points (text : List Char) (s : ParserState) (v : AtHand) : Prop where
  reader : s.reader.Points text
  accepted : v.fresh → s.accepted.StandsIn text

namespace Action

variable {ctx : Context} {D : Discipline ctx} {α : Type} {s : ParserState} {v : AtHand}

/-- What an action reports that does as it is asked to points at what it names. -/
theorem remarks_point (action : Action α) (hs : s.Sees D v) (h : s.Points text v) (hasks : D.Asks action v) :
    ∀ d ∈ action.remarks s, d.PointsIn text := by
  have hnext := h.reader.next
  cases action with
  | lookahead | qualifies | accept | enter p | skipped n | build r => exact fun d hd => (List.not_mem_nil hd).elim
  | reject expected =>
    intro d hd
    obtain rfl := List.mem_singleton.mp hd
    refine .inr ⟨_, s.reader.next.lexeme.toList, rfl, ?_, hnext.stands, fun heof => ?_⟩
    · exact congrArg some String.ofList_toList.symm
    · obtain ⟨hempty, hplace⟩ := hnext.eof (Option.some.inj heof)
      exact ⟨by simp [hempty], hplace⟩
  | warnNext code =>
    intro d hd
    obtain rfl := List.mem_singleton.mp hd
    refine Diagnostic.pointsIn rfl rfl ?_ (hnext.stands.of_prefix List.nil_prefix)
    have hcode : code.ofNoItems = true := hasks
    cases code <;> first | rfl | cases hcode
  | warnAccepted code =>
    intro d hd
    obtain rfl := List.mem_singleton.mp hd
    obtain ⟨hcode, hsemicolon, hfresh⟩ := hasks
    -- it was seen to be a semicolon when it was next, and it has not moved since
    have htoken : s.accepted.token.wellFormed = .semicolon := hs.last.symm.trans hsemicolon
    have hstands := h.accepted hfresh
    have hlexeme := hstands.semicolon ((wellFormed_eq_iff (by simp)).mp htoken)
    have hplace := hstands.stands
    rw [hlexeme] at hplace
    refine Diagnostic.pointsIn rfl rfl ?_ hplace
    cases code <;> first | rfl | cases hcode
  | rejectClosing closing =>
    intro d hd
    obtain rfl := List.mem_singleton.mp hd
    obtain ⟨hclosing, hfresh⟩ := hasks
    have hlexeme : s.accepted.lexeme = closing := hs.lexeme.symm.trans hclosing
    exact Diagnostic.pointsIn rfl rfl (congrArg some (hlexeme ▸ String.ofList_toList.symm)) (h.accepted hfresh).stands

/-- Whatever an action does that does as it is asked to, all reports still point at what they name. -/
theorem points_perform (action : Action α) (hs : s.Sees D v) (h : s.Points text v) (hasks : D.Asks action v) :
    (action.perform s).2.Points text (v.after action (action.perform s).1) := by
  refine ⟨action.keeps_perform (P := SymbolReader.Points text) (fun _ hr => hr.read) (fun _ hr => hr.peekSecond)
    (fun _ d hd hr => hr.report (action.remarks_point hs h hasks d hd))
    (fun _ _ hr => ⟨hr.reports, hr.unseen, hr.pending, hr.last⟩) h.reader, fun hfresh => ?_⟩
  cases action with
  | accept =>
    have haccepted : (accept.perform s).2.accepted = s.reader.next := current_read s.reader
    rw [haccepted]
    exact h.reader.next
  | reject expected | warnNext code => exact hfresh.elim
  | lookahead | qualifies | enter p | warnAccepted code | rejectClosing closing | skipped n | build r =>
    rw [accepted_perform rfl]
    exact h.accepted hfresh

end Action

/-- In every parse of an accepted text, as a unit of either kind and under all options, each diagnostic points at what it
names. At its position the text with its line ends normalized begins with the offending lexeme or character, a backslash
before a character that it does not escape, the opening of a comment or pragma that is not closed or too deep, the quote
of a string that is not closed, or the errant semicolon; where the end of the input is unexpected, nothing is left of the
text. -/
theorem diagnostics_point (o : Options) (kind : UnitKind) (filename text : String) (s : Source)
    (h : Source.ofText filename text = .ok s) :
    ∀ d ∈ (parse o kind s).diagnostics, d.PointsIn (LineEnds.normalize text.toList) := by
  have hlength := Source.length_rest_le h
  have htext : TextFrom (LineEnds.normalize text.toList) s.position s.rest := by
    rw [Source.eq_ofNormalized h]
    exact ⟨[], rfl, rfl⟩
  have hstart : (ParserState.start o (.ofSource o s)).settle.reader.Points (LineEnds.normalize text.toList) :=
    keeps_skipPragmas (P := SymbolReader.Points _) (fun _ hr => hr.read) (points_ofSource o hlength htext)
  obtain ⟨-, v, hpoints⟩ := parse_careful kind hlength
    (fun action _ _ hs h hasks => action.points_perform hs h hasks) ⟨hstart, False.elim⟩
  exact hpoints.reader.reports

/-- A module that ends with another name. -/
theorem diagnostics_point_mismatch :
    ∃ s, Source.ofText "m" "MODULE M;\r\nEND N." = .ok s ∧
      (parse .standard .implementation s).diagnostics = [.ofLexeme .closingIdentMismatch ⟨2, 5⟩ "N"] ∧
      ∀ d ∈ (parse .standard .implementation s).diagnostics, d.PointsIn "MODULE M;\nEND N.".toList := by
  have h : Source.ofText "m" "MODULE M;\r\nEND N." = .ok (.ofNormalized "m" "MODULE M;\nEND N.".toList) := by rfl
  refine ⟨_, h, by decide, ?_⟩
  exact diagnostics_point .standard .implementation _ _ _ h

end Modula
