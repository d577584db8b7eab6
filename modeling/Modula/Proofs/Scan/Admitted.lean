import Modula.Proofs.Reader.Stream

/-!
# Symbols that the capabilities admit

Whatever is wrong with a text, a character code is found in it only if octal literals are available, and an identifier
with a lowline only if lowlines are. So every symbol ahead of a reader is one that the capabilities admit.
-/

set_option autoImplicit false

namespace Modula

/-- An identifier holds lowlines only if it may. -/
def Capabilities.AllowsIdent (c : Capabilities) (ident : String) : Prop :=
  '_' ∈ ident.toList → c.lowlineIdentifiers = true

/-- A symbol that is spelled as the capabilities admit. -/
structure Symbol.Admitted (c : Capabilities) (s : Symbol) : Prop where
  character : s.token = .char → c.octalLiterals = true
  ident : s.token = .ident → c.AllowsIdent s.lexeme

namespace Scan

variable {rules : ScanRules}

/-! ## Single symbols -/

/-- A character code is a number with an octal suffix. -/
theorem octalLiterals_of_number {cs : List Char} (h : (number rules cs).1 = .char) : rules.octalLiterals = true := by
  unfold number suffixed fraction exponent at h
  grind

/-- All characters of a word are characters of words. -/
theorem lowlines_of_word {cs : List Char} (h : '_' ∈ (word rules cs).2) : rules.lowlines = true := by
  have hchar : isWordChar rules '_' = true := List.mem_takeWhile_imp h
  simpa [isWordChar] using hchar

/-- What the scanner takes for a character code is one under the rules. -/
theorem Recognized.octalLiterals {p : Position} {c : Char} {rest : List Char} {found : Delimited}
    (h : Recognized rules p c rest found) (hfound : found.token = .char) : rules.octalLiterals = true := by
  cases h with
  | string hquote => exact (string_ne rules p c rest (by simp) (by simp) hfound).elim
  | pragma => simp [pragma_token] at hfound
  | word hc => exact (word_ne rules _ (by simp) rfl hfound).elim
  | number hc => exact octalLiterals_of_number hfound
  | special => exact (special_ne rules _ (by simp) hfound).elim

/-- What the scanner takes for an identifier is one under the rules. -/
theorem Recognized.lowlines {p : Position} {c : Char} {rest : List Char} {found : Delimited}
    (h : Recognized rules p c rest found) (hfound : found.token = .ident) (hlowline : '_' ∈ found.spelling) :
    rules.lowlines = true := by
  cases h with
  | string hquote => exact (string_ne rules p c rest (by simp) (by simp) hfound).elim
  | pragma => simp [pragma_token] at hfound
  | word hc => exact lowlines_of_word hlowline
  | number hc => exact (number_ne rules _ (by simp) hfound).elim
  | special => exact (special_ne rules _ (by simp) hfound).elim

/-! ## Texts -/

variable {o : Options} {s s' : Source}

/-- A symbol that is found is one that the capabilities admit. -/
theorem Finds.admitted {before : List Diagnostic} {found : Scanned} (h : Finds o.scanRules s before found s') :
    found.symbol.Admitted o.capabilities where
  character hfound := by
    obtain ⟨c, rest, own, -, hsymbol⟩ := h.recognized (by simp [hfound])
    exact hsymbol.octalLiterals hfound
  ident hfound hlowline := by
    obtain ⟨c, rest, own, -, hsymbol⟩ := h.recognized (by simp [hfound])
    exact hsymbol.lowlines hfound hlowline

/-- So are all symbols of a text. -/
theorem Reads.admitted {found : List Scanned} (h : Reads o.scanRules s found) :
    ∀ t ∈ found, t.symbol.Admitted o.capabilities := by
  induction h with
  | last hfinds heof => simpa using hfinds.admitted
  | more hfinds heof less next ih => simpa using ⟨hfinds.admitted, ih⟩

end Scan

/-- All symbols ahead of a reader of a source are admitted. -/
theorem SymbolReader.admitted_ofSource {o : Options} {s : Source} (h : s.rest.length ≤ s.length) :
    ∀ u ∈ (SymbolReader.ofSource o s).ahead, u.Admitted o.capabilities := by
  intro u hu
  have hpending : u ∈ (SymbolReader.ofSource o s).pending := (List.takeWhile_sublist _).subset hu
  rw [SymbolReader.pending_ofSource h] at hpending
  obtain ⟨t, ht, rfl⟩ := List.mem_map.mp hpending
  exact (Scan.reads_symbols o.scanRules s h).admitted t ht

end Modula
