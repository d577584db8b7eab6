import Modula.Proofs.Reader.Reports
import Modula.Proofs.Scan.Order

/-!
# The order of reports

The faults of a symbol are reported when the symbol comes into view, and what is wrong with the symbols that stand
together is reported where the parser is. So a lexical fault may be reported before something at an earlier position,
but nothing else may: what a reader keeps of its reports (`SymbolReader.Orderly`) is that they stand in order in this
sense, and that all but the lexical faults lie in front of some position, from which on all further reports will lie.
-/

set_option autoImplicit false

namespace Modula

open Scan

/-- A diagnostic that is no lexical fault comes only before those at the same position and at later ones. -/
def Diagnostic.MayPrecede (d e : Diagnostic) : Prop :=
  d.code.category ≠ .lexical → ∀ p ∈ d.position, ∀ q ∈ e.position, p ≤ q

namespace Reporter

/-- The reports are in order, and all but the lexical faults lie at a position or before it. -/
structure Ordered (r : Reporter) (p : Position) : Prop where
  pairwise : r.diagnostics.Pairwise Diagnostic.MayPrecede
  bounded : ∀ d ∈ r.diagnostics, d.code.category ≠ .lexical → ∀ q ∈ d.position, q ≤ p

variable {r : Reporter} {p q : Position} {d : Diagnostic}

/-- Reports that are in order up to a position are so up to any later one. -/
theorem Ordered.mono (hpq : p ≤ q) (h : r.Ordered p) : r.Ordered q :=
  ⟨h.pairwise, fun d hd hcode r hr => (h.bounded d hd hcode r hr).trans hpq⟩

/-- A report between two positions, of which the first one bounds the reports before, the second one those after. -/
theorem Ordered.emit (h : r.Ordered p) (hpq : p ≤ q) (hfrom : ∀ x ∈ d.position, p ≤ x)
    (hto : d.code.category ≠ .lexical → ∀ x ∈ d.position, x ≤ q) : (r.emit d).Ordered q := by
  have hreported := r.diagnostics_emit_eq d
  constructor
  · rw [hreported, List.pairwise_append]
    refine ⟨h.pairwise, List.pairwise_singleton _ _, fun b hb c hc hlexical x hx y hy => ?_⟩
    obtain rfl := List.mem_singleton.mp hc
    exact (h.bounded b hb hlexical x hx).trans (hfrom y hy)
  · intro b hb hlexical x hx
    rw [hreported] at hb
    obtain hb | hb := List.mem_append.mp hb
    · exact (h.bounded b hb hlexical x hx).trans hpq
    · obtain rfl := List.mem_singleton.mp hb
      exact hto hlexical x hx

/-- Lexical faults from the bound on do not move it. -/
theorem Ordered.emitAll {ds : List Diagnostic} (h : r.Ordered p) (hds : ∀ d ∈ ds, FaultFrom p d) :
    (r.emitAll ds).Ordered p := by
  induction ds generalizing r with
  | nil => exact h
  | cons d ds ih =>
    have hd := hds d (by simp)
    exact ih (h.emit le_rfl hd.2 fun hlexical => (hlexical hd.1).elim) fun e he => hds e (by simp [he])

end Reporter

namespace SymbolReader

/-- The last symbol that has come into view. -/
def latest (r : SymbolReader) : Symbol := r.second.getD r.next

/-- The reports are in order, all but the lexical faults before a position, and everything to come is from that position
on: the next symbol, the symbol after it, and the symbols that have not come into view, with their faults. -/
structure Orderly (r : SymbolReader) (p : Position) : Prop where
  reports : r.reporter.Ordered p
  next : p ≤ r.next.position
  latest : r.next.position ≤ r.latest.position
  ascending : Ascending r.latest.position (r.unseen ++ [⟨r.last, []⟩])

variable {r : SymbolReader} {p q : Position}

/-- A reader in order up to a position is so up to any later one that is not behind the next symbol. -/
theorem Orderly.mono (hpq : p ≤ q) (hq : q ≤ r.next.position) (h : r.Orderly p) : r.Orderly q :=
  ⟨h.reports.mono hpq, hq, h.latest, h.ascending⟩

/-- What comes into view comes later, and its faults are reported in order. -/
theorem Orderly.scan (h : r.Orderly p) :
    r.latest.position ≤ r.scan.1.position ∧ r.scan.2.reporter.Ordered p ∧
      Ascending r.scan.1.position (r.scan.2.unseen ++ [⟨r.scan.2.last, []⟩]) := by
  have hascending := h.ascending
  have hp := h.next.trans h.latest
  rw [scan_eq]
  unfold upcoming
  cases hunseen : r.unseen with
  | nil =>
    rw [hunseen] at hascending
    exact ⟨hascending.1, h.reports, le_rfl, by simp, trivial⟩
  | cons u others =>
    rw [hunseen] at hascending
    exact ⟨hascending.1, h.reports.emitAll fun d hd => (hascending.2.1 d hd).mono hp, hascending.2.2⟩

/-- Asking for the second symbol keeps the order. -/
theorem Orderly.peekSecond (h : r.Orderly p) : r.peekSecond.2.Orderly p := by
  obtain hpeek | ⟨hs, hpeek⟩ := r.peekSecond_cases
  · rwa [hpeek]
  · obtain ⟨hplace, hreports, hascending⟩ := h.scan
    have hlatest : r.latest = r.next := by simp [SymbolReader.latest, hs]
    have hnext : r.scan.2.next = r.next := by rw [scan_eq]
    rw [hlatest] at hplace
    rw [hpeek]
    refine ⟨hreports, ?_, ?_, hascending⟩
    · exact h.next.trans_eq (congrArg Symbol.position hnext.symm)
    · exact (congrArg Symbol.position hnext).trans_le hplace

/-- Reading a symbol keeps the order, and moves on. -/
theorem Orderly.read (h : r.Orderly p) : r.read.Orderly p ∧ r.next.position ≤ r.read.next.position := by
  have hlatest : r.peekSecond.2.latest = r.peekSecond.1 := by simp [SymbolReader.latest, second_peekSecond]
  obtain ⟨hreports, hnext, hplace, hascending⟩ := h.peekSecond
  rw [next_peekSecond] at hnext hplace
  rw [hlatest] at hplace hascending
  rw [read_eq]
  exact ⟨⟨hreports, hnext.trans hplace, le_rfl, hascending⟩, hplace⟩

/-- Passing pragmas keeps the order. -/
theorem Orderly.skipPragmas (h : r.Orderly p) : r.skipPragmas.Orderly p :=
  keeps_skipPragmas (P := fun r => r.Orderly p) (fun _ h => h.read.1) h

/-- So does logging. -/
theorem Orderly.log (h : r.Orderly p) (e : Event) : (r.log e).Orderly p := ⟨h.reports, h.next, h.latest, h.ascending⟩

/-- A report at a position between the reports before and what is to come. -/
theorem Orderly.report {d : Diagnostic} (h : r.Orderly p) (hpq : p ≤ q) (hq : q ≤ r.next.position)
    (hd : d.position = some q) : (r.report d).Orderly q := by
  refine ⟨h.reports.emit hpq ?_ fun _ => ?_, hq, h.latest, h.ascending⟩
  · rintro x hx
    rw [hd, Option.mem_some] at hx
    exact hx ▸ hpq
  · rintro x hx
    rw [hd, Option.mem_some] at hx
    exact hx.symm.le

/-- Symbols still ascend with the end repeated. -/
theorem ascending_append_last {found : List Scanned} {last : Scanned} (h : Ascending p found)
    (hlast : found.getLast? = some last) : Ascending p (found ++ [⟨last.symbol, []⟩]) := by
  induction found generalizing p with
  | nil => cases hlast
  | cons u others ih =>
    refine ⟨h.1, h.2.1, ?_⟩
    cases others with
    | nil =>
      obtain rfl : u = last := by simpa using hlast
      exact ⟨le_rfl, by simp, trivial⟩
    | cons v others => exact ih h.2.2 (by simpa using hlast)

/-- A reader at the start of a text has everything before it, and nothing but lexical faults behind it. -/
theorem orderly_ofSource (o : Options) {s : Source} (hlength : s.rest.length ≤ s.length) (hstart : s.position = .start) :
    (ofSource o s).Orderly .start := by
  have hascending := (reads_symbols o.scanRules s hlength).ascending
  rw [hstart] at hascending
  have hunread : (unread o s).Orderly .start := by
    refine ⟨⟨.nil, by simp [unread, Reporter.diagnostics]⟩, le_rfl, le_rfl, ?_⟩
    have hlast := List.getLast?_eq_some_getLast (symbols_ne_nil o hlength)
    have hsymbol : (unread o s).last = ((Scan.symbols o.scanRules s).getLast (symbols_ne_nil o hlength)).symbol := by
      simp [unread, hlast]
    rw [hsymbol]
    exact ascending_append_last hascending hlast
  rw [← read_unread]
  exact hunread.read.1

end SymbolReader

end Modula
