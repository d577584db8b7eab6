import Mathlib.Data.List.Induction
import Modula.Proofs.Reader.Stream

/-!
# Scanning loses nothing

The symbols of a text are all that a reader of the text gets. They stand in it one after the other, each spelled by its
own characters at the place it names, and what is left between them are gaps (`symbols_cover_text`). The place of a
character is counted here from the whole text in front of it, by `placeAfter`, and not along the way.
-/

set_option autoImplicit false

namespace Modula

/-- The place right after a text: the line ends in it tell the line, the characters after the last of them the
column. -/
def placeAfter (text : List Char) : Position :=
  ⟨text.count '\n' + 1, (text.reverse.takeWhile (· ≠ '\n')).length + 1⟩

/-- Counting along a text leads to the place right after it. -/
theorem afterAll_eq_placeAfter (text : List Char) : Position.start.afterAll text = placeAfter text := by
  induction text using List.reverseRecOn with
  | nil => rfl
  | append_singleton text c ih =>
    have hlast : Position.start.afterAll (text ++ [c]) = (placeAfter text).after c := by
      rw [Position.afterAll_append, ih]
      rfl
    rw [hlast]
    by_cases hc : c = '\n'
    · simp [Position.after, placeAfter, hc]
    · simp [Position.after, placeAfter, hc]

/-- Counting on along a further text leads to the place right after both. -/
theorem afterAll_placeAfter (before text : List Char) :
    (placeAfter before).afterAll text = placeAfter (before ++ text) := by
  rw [← afterAll_eq_placeAfter, ← afterAll_eq_placeAfter, Position.afterAll_append]

namespace Scan

/-- Symbols cover a text that stands after another one: it is a gap, the spelling of the first symbol, which starts at
the place the symbol names, and a text that the other symbols cover. The last symbol is the end of the input, which
stands at the end of the text; only before it may a comment or a disabled section lack its end. -/
inductive Covers : (before : List Char) → List Symbol → (text : List Char) → Prop
  | finish {before gap : List Char} (hgap : Gap true (placeAfter before) gap) :
      Covers before [.endOfInput (placeAfter (before ++ gap))] gap
  | symbol {before gap text : List Char} {s : Symbol} {others : List Symbol}
      (hgap : Gap false (placeAfter before) gap) (htoken : s.token ≠ .eof) (hlexeme : s.lexeme ≠ "")
      (hposition : s.position = placeAfter (before ++ gap))
      (next : Covers (before ++ gap ++ s.lexeme.toList) others text) :
      Covers before (s :: others) (gap ++ s.lexeme.toList ++ text)

/-- The last symbol that covers a text is the end of the input, at the place right after the text. -/
theorem Covers.getLast?_eq {before text : List Char} {symbols : List Symbol} (h : Covers before symbols text) :
    symbols.getLast? = some (.endOfInput (placeAfter (before ++ text))) := by
  induction h with
  | finish hgap => rfl
  | @symbol before gap text s others hgap htoken hlexeme hposition next ih =>
    rw [List.getLast?_cons, ih]
    simp

/-- What is read from a reading point covers the text from there on. -/
theorem Reads.covers {rules : ScanRules} {s : Source} {found : List Scanned} (h : Reads rules s found)
    (before : List Char) (hbefore : s.position = placeAfter before) :
    Covers before (found.map (·.symbol)) s.rest := by
  induction h generalizing before with
  | @last s s' found hfinds heof =>
    obtain ⟨hfound, hgap⟩ := hfinds.splits.of_eof heof
    rw [hbefore, afterAll_placeAfter] at hfound
    rw [hbefore] at hgap
    rw [List.map_singleton, hfound]
    exact .finish hgap
  | @more s s' found others hfinds heof less next ih =>
    obtain ⟨gap, spelling, hs, hne, hgap, hposition, hlexeme, hposition', -⟩ := hfinds.splits.of_ne_eof heof
    have hspelling : found.symbol.lexeme.toList = spelling := by rw [hlexeme, String.toList_ofList]
    rw [hbefore, afterAll_placeAfter] at hposition hposition'
    rw [hbefore] at hgap
    rw [hs, List.map_cons, ← hspelling]
    refine .symbol hgap heof ?_ hposition ?_
    · intro hempty
      rw [hempty] at hspelling
      exact hne hspelling.symm
    · rw [hspelling, List.append_assoc]
      exact ih (before ++ (gap ++ spelling)) hposition'

/-- The symbols of an accepted text cover its text with the line ends normalized. A reader gets them one after the
other, and after them the end of the input again and again. -/
theorem symbols_cover_text (o : Options) (filename text : String) (s : Source)
    (h : Source.ofText filename text = .ok s) :
    Covers [] ((symbols o.scanRules s).map (·.symbol)) (LineEnds.normalize text.toList) ∧
      ∀ n : Nat, (SymbolReader.read^[n + 1] (.ofSource o s)).current =
        ((symbols o.scanRules s).map (·.symbol)).getD n
          (.endOfInput (placeAfter (LineEnds.normalize text.toList))) := by
  obtain rfl := Source.eq_ofNormalized h
  have hcovers := (reads_symbols o.scanRules (.ofNormalized filename (LineEnds.normalize text.toList))
    (Nat.le_refl _)).covers [] rfl
  refine ⟨hcovers, fun n => ?_⟩
  rw [SymbolReader.current_iterate_read, SymbolReader.pending_ofSource (Nat.le_refl _)]
  have hlast := hcovers.getLast?_eq
  rw [List.nil_append] at hlast
  rw [SymbolReader.ofSource, SymbolReader.last_start _ _ _ _ (SymbolReader.symbols_ne_nil o (Nat.le_refl _))]
  rw [List.getLast?_map, List.getLast?_eq_some_getLast (SymbolReader.symbols_ne_nil o (Nat.le_refl _)),
    Option.map_some, Option.some.injEq] at hlast
  rw [hlast]
  rfl

/-- In a text of three lines with a comment, a disabled section and a character that also marks the end. -/
theorem symbols_cover_text_gaps :
    ∃ s, Source.ofText "m" "x(* é *)\r\n?< y\r\n>?\r\n\x04" = .ok s ∧
      Covers [] ((symbols Options.standard.scanRules s).map (·.symbol)) "x(* é *)\n?< y\n>?\n\x04".toList := by
  have h : Source.ofText "m" "x(* é *)\r\n?< y\r\n>?\r\n\x04" =
      .ok (.ofNormalized "m" "x(* é *)\n?< y\n>?\n\x04".toList) := by rfl
  exact ⟨_, h, (symbols_cover_text _ _ _ _ h).1⟩

end Scan

end Modula
