import Modula.Proofs.Scan.Lexemes
import Modula.Proofs.Source.LineEnds

/-!
# The languages of tokens

A text that is read as one symbol without errors is a lexeme of its token, and every lexeme is read so, under all
options (`token_language`). Since a lexeme starts no comment and no disabled section, it is also found before a blank.
-/

set_option autoImplicit false

namespace Modula

namespace Scan

variable {o : Options} {s s' : Source} {before : List Diagnostic} {found : Scanned}

/-! ## Lexemes are found -/

/-- No token is spelled by the empty text. -/
theorem Lexeme.ne_nil {t : Token} {cs : List Char} (h : Lexeme o t cs) : cs ≠ [] := by
  rintro rfl
  generalize hnil : [] = cs at h
  cases h with
  | @reserved t' cs' hword =>
    subst hnil
    have hsome := (reservedWord_letters t (Token.mem_all t) _ hword).2.2
    simp at hsome
  | @special t' cs' hspecial =>
    subst hnil
    obtain ⟨c, rest, hcs, -⟩ := special_lexeme o.scanRules .start hspecial
    simp at hcs
  | decimal hdigits => exact hdigits.1 hnil.symm
  | octal | charCode | real => simp at hnil
  | ident | ampersand | tilde | unequal | hexadecimal | string | pragma => cases hnil

/-- A lexeme starts with no layout and no disabled section, and as a comment only if it is a parenthesis. -/
theorem Lexeme.starts {t : Token} {c : Char} {rest : List Char} (h : Lexeme o t (c :: rest)) :
    isLayout c = false ∧ c ≠ '?' ∧ (c = '(' → rest = []) := by
  have hsymbol := h.symbolAt_eq .start
  have hknown : ∀ d, isLayout d = true ∨ d = '?' → c ≠ d := by
    rintro d hd rfl
    simp only [isLayout, Bool.or_eq_true, beq_iff_eq] at hd
    obtain ((rfl | rfl) | rfl) | rfl := hd <;> cases congrArg Delimited.faults hsymbol
  refine ⟨?_, hknown '?' (.inr rfl), ?_⟩
  · by_contra hlayout
    exact hknown c (.inl (by simpa using hlayout)) rfl
  · rintro rfl
    cases hsymbol
    rfl

/-- Before a blank or the end of the text, a lexeme is found as the symbol that it spells, and nothing is wrong. -/
theorem Lexeme.finds {t : Token} {spelling after : List Char} (h : Lexeme o t spelling) (before : List Diagnostic)
    (hs : s.rest = spelling ++ after) (hafter : after = [] ∨ after.head? = some ' ') :
    Finds o.scanRules s before ⟨⟨t, String.ofList spelling, s.position⟩, before.reverse⟩ (s.advance spelling.length) := by
  obtain ⟨c, rest, rfl⟩ := List.exists_cons_of_ne_nil h.ne_nil
  obtain ⟨hlayout, hsection, hcomment⟩ := h.starts
  have hreplaces : Replaces after [] := by
    obtain rfl | hblank := hafter
    · exact .inr ⟨rfl, fun hpoints => by simp at hpoints⟩
    · exact .inl hblank
  have hsymbol := h.symbolAt_eq s.position
  have hfaultless : Faultless (symbolAt o.scanRules s.position c rest).faults := by
    rw [hsymbol]
    exact fun d hd => (List.not_mem_nil hd).elim
  have hself : c :: rest = (symbolAt o.scanRules s.position c rest).spelling ++ [] := by simp [hsymbol]
  obtain ⟨rest', hsplit, hcontext, -⟩ := symbolAt_context hself (.replaces hfaultless hreplaces)
  rw [hsymbol] at hsplit hcontext
  obtain rfl : rest ++ after = rest' := (List.cons.inj hsplit).2
  have hfinds := @finds_here o.scanRules s before c (rest ++ after) hs hlayout ?_ ?_
  · rw [hcontext, List.append_nil] at hfinds
    exact hfinds
  · rintro ⟨hparen, hstar⟩
    rw [hcomment hparen, List.nil_append] at hstar
    obtain rfl | hblank := hafter
    · cases hstar
    · cases hblank.symm.trans hstar
  · exact fun hdisabled => hsection hdisabled.1

/-! ## A text that is one symbol -/

/-- A text is read as one symbol without errors if and only if it is a lexeme of the token. -/
theorem reads_lexeme_iff {t : Token} {cs : List Char} {found : List Scanned} (hreads : Reads o.scanRules s found)
    (hs : s.rest = cs) :
    found.map (fun u => (u.symbol.token, u.symbol.lexeme)) = [(t, String.ofList cs), (.eof, "")] ∧
      (∀ u ∈ found, Faultless u.faults) ↔ Lexeme o t cs := by
  constructor
  · rintro ⟨hsymbols, hfaultless⟩
    cases hreads with
    | last hfinds heof => simp at hsymbols
    | @more s s' u others hfinds heof less next =>
      simp only [List.map_cons, List.cons.injEq, Prod.mk.injEq] at hsymbols
      obtain ⟨⟨rfl, hlexeme⟩, -⟩ := hsymbols
      have hfound := hfinds.lexeme heof (hfaultless u (by simp))
      rwa [hlexeme, String.toList_ofList] at hfound
  · intro h
    have hsplit : s.rest = cs ++ [] := by simpa using hs
    have hfinds := h.finds [] hsplit (.inl rfl)
    have hend : (s.advance cs.length).rest = [] := Source.rest_advance_append (by simpa using hs)
    have hskip : (skipLayout (s.advance cs.length)).rest = [] := by
      have hlength := length_skipLayout_le (s.advance cs.length)
      rw [hend] at hlength
      exact List.length_eq_zero_iff.mp (by simpa using hlength)
    have hlast : Reads o.scanRules (s.advance cs.length)
        [⟨.endOfInput (skipLayout (s.advance cs.length)).position, [].reverse⟩] := .last (.finish hskip) rfl
    have heof : t ≠ .eof := by
      obtain ⟨c, rest, rfl⟩ := List.exists_cons_of_ne_nil h.ne_nil
      have htoken := (symbolAt_spells o.scanRules .start c rest).1
      rwa [h.symbolAt_eq] at htoken
    have hone := reads_cons_iff.mpr ⟨_, hfinds, .inr ⟨heof, hlast⟩⟩
    obtain rfl := hreads.unique hone
    refine ⟨by simp [Symbol.endOfInput], ?_⟩
    simp [Faultless]

end Scan

open Scan

/-- An accepted text without carriage returns is read as one symbol and the end of the input, without an error, if and
only if it is a lexeme of the symbol's token, for every token and under all options. -/
theorem token_language (o : Options) (t : Token) (filename text : String) (s : Source) (hreturn : '\r' ∉ text.toList)
    (h : Source.ofText filename text = .ok s) :
    (symbols o.scanRules s).map (fun u => (u.symbol.token, u.symbol.lexeme)) = [(t, text), (.eof, "")] ∧
      (∀ u ∈ symbols o.scanRules s, Faultless u.faults) ↔ Lexeme o t text.toList := by
  have hrest : s.rest = text.toList := by
    rw [Source.eq_ofNormalized h, LineEnds.normalize_of_no_return hreturn]
    rfl
  have hlanguage := reads_lexeme_iff (t := t) (reads_symbols o.scanRules s (Source.length_rest_le h)) hrest
  rwa [String.ofList_toList] at hlanguage

/-- A real number with an exponent. -/
theorem token_language_exponent :
    ∃ s, '\r' ∉ "1.5E-3".toList ∧ Source.ofText "m" "1.5E-3" = .ok s ∧
      (symbols Options.standard.scanRules s).map (fun u => (u.symbol.token, u.symbol.lexeme)) =
        [(.real, "1.5E-3"), (.eof, "")] ∧
      ∀ u ∈ symbols Options.standard.scanRules s, Faultless u.faults := by
  have hreturn : '\r' ∉ "1.5E-3".toList := by decide
  have h : Source.ofText "m" "1.5E-3" = .ok (.ofNormalized "m" "1.5E-3".toList) := by rfl
  have hdigits : ∀ d : Char, d.isDigit = true → IsRun IsDecimal [d] := fun d hd => ⟨by simp, by simpa using isDigit_iff.mp hd⟩
  have hlexeme : Lexeme .standard .real (['1'] ++ '.' :: (['5'] ++ 'E' :: (['-'] ++ ['3']))) :=
    .real (hdigits '1' rfl) (hdigits '5' rfl).2 (.exponent (.inr (.inr rfl)) (hdigits '3' rfl))
  obtain ⟨hsymbols, hfaultless⟩ := (token_language .standard .real _ _ _ hreturn h).mpr hlexeme
  exact ⟨_, hreturn, h, hsymbols, hfaultless⟩

end Modula
