import Modula.Proofs.Scan.Comments
import Modula.Proofs.Scan.Reading

/-!
# What is reported of a symbol

The faults listed with a symbol are those of the gap before it and those of the symbol itself (`Scan.Finds.complaints`).
The former are about comments, where these open, and disabled sections (`Scan.GapFault`). The latter are told by the symbol
and the text after it (`Scan.Complaints`): an invalid character, a number without its suffix or exponent, and an
identifier that is too long are reported once; a malformed string is reported for each backslash that escapes nothing
and for its end, if that is no closing quote, and never for nothing; all other symbols but pragmas are not reported.
-/

set_option autoImplicit false

namespace Modula

/-- Whether a fault with this code lies in a gap between symbols. -/
def Code.ofGap : Code → Bool
  | .disabledSection | .unclosedComment | .commentTooDeep => true
  | _ => false

namespace Scan

/-! ## What may be reported -/

/-- What is reported of a symbol itself, in front of a text. -/
inductive Complaints (rules : ScanRules) (u : Symbol) (after : List Char) : List Diagnostic → Prop
  | character {c : Char} (htoken : u.token = .unknown) (hlexeme : u.lexeme.toList = [c]) :
      Complaints rules u after [.ofCharacter .invalidCharacter u.position c]
  | integer (htoken : u.token = .malformedInteger) :
      Complaints rules u after [.ofLexeme .missingSuffix u.position u.lexeme]
  | real (htoken : u.token = .malformedReal) :
      Complaints rules u after [.ofLexeme .missingExponent u.position u.lexeme]
  | ident (htoken : u.token = .ident) (hlong : 32 < u.lexeme.length) :
      Complaints rules u after [.ofLexeme .identTooLong u.position u.lexeme]
  | string {quote : Char} {body closing : List Char} {stray ending : List Diagnostic}
      (htoken : u.token = .malformedString) (hquote : quote = '\'' ∨ quote = '"')
      (hlexeme : u.lexeme.toList = quote :: (body ++ closing))
      (hbody : StringContent quote rules.escapes (closing ++ after) (u.position.after quote) body stray)
      (hend : StringEnd quote u.position closing after ending) (hsome : stray ++ ending ≠ []) :
      Complaints rules u after (stray ++ ending)
  | pragma (htoken : u.token = .pragma) (hafter : after = []) :
      Complaints rules u after [.atPosition .unclosedPragma u.position]
  | none (htoken : u.token ∉ [.unknown, .malformedInteger, .malformedReal, .malformedString])
      (hident : u.token = .ident → u.lexeme.length ≤ 32) : Complaints rules u after []

/-! ## What the scanner reports -/

/-- A word, a number or a special symbol is reported as its token tells. -/
theorem faults_complaints (rules : ScanRules) (p : Position) {spelled : Spelled} {after : List Char}
    (hunknown : spelled.1 = .unknown → ∃ c, spelled.2 = [c]) (hstring : spelled.1 ≠ .malformedString) :
    Complaints rules ⟨spelled.1, String.ofList spelled.2, p⟩ after (faults p spelled) := by
  obtain ⟨token, spelling⟩ := spelled
  cases token with
  | ident =>
    rw [faults]
    split
    · next hlong => exact .ident rfl (by simpa [maxIdentLength] using hlong)
    · next hlong => exact .none (by simp) fun _ => by simpa [maxIdentLength] using hlong
  | malformedInteger => exact .integer rfl
  | malformedReal => exact .real rfl
  | unknown =>
    obtain ⟨c, hc⟩ := hunknown rfl
    obtain rfl : spelling = [c] := hc
    exact .character rfl (by simp)
  | malformedString => exact (hstring rfl).elim
  | _ => exact .none (by simp) (by simp)

/-- What the scanner reports of a symbol, besides the gap before it, is told by the symbol and the text after it. -/
theorem symbolAt_complaints (rules : ScanRules) (p : Position) {c : Char} {rest : List Char} :
    Complaints rules ⟨(symbolAt rules p c rest).token, String.ofList (symbolAt rules p c rest).spelling, p⟩
      ((c :: rest).drop (symbolAt rules p c rest).spelling.length) (symbolAt rules p c rest).faults := by
  have hsymbol := recognized_symbolAt rules p c rest
  generalize symbolAt rules p c rest = found at hsymbol ⊢
  cases hsymbol with
  | string hquote =>
    obtain ⟨body, closing, after, stray, ending, rfl, hstring, hbody, hend⟩ := string_parts rules p c rest
    have hsplit : c :: (body ++ (closing ++ after)) = c :: (body ++ closing) ++ after := by simp
    have hafter : (c :: (body ++ (closing ++ after))).drop (c :: (body ++ closing)).length = after := by
      rw [hsplit, List.drop_left]
    rw [hstring]
    dsimp only
    rw [hafter]
    split
    · next hnone =>
      rw [hnone]
      exact .none (by simp) (by simp)
    · next hsome => exact .string rfl hquote (by simp) hbody hend hsome
  | @pragma rest =>
    obtain ⟨content, after, rfl, -, hpragma⟩ | hpragma := pragma_parts p rest
    · rw [hpragma]
      exact .none (by simp) (by simp)
    · rw [hpragma]
      exact .pragma rfl (by simp)
  | word hc => exact faults_complaints rules p (fun h => (word_ne rules _ (by simp) rfl h).elim) (word_ne rules _ (by simp) rfl)
  | number hc => exact faults_complaints rules p (fun h => (number_ne rules _ (by simp) h).elim) (number_ne rules _ (by simp))
  | special =>
    exact faults_complaints rules p (fun h => ⟨c, congrArg Prod.snd (special_unknown h rest)⟩) (special_ne rules _ (by simp))

/-! ## Gaps -/

/-- What may be reported of a comment at the start of a text: that it or one inside it is not closed or too deep, at the
characters that open it. -/
def CommentFault (p : Position) (text : List Char) (d : Diagnostic) : Prop :=
  ∃ code front, (code = .unclosedComment ∨ code = .commentTooDeep) ∧ front ++ ['(', '*'] <+: text ∧
    d = .atPosition code (p.afterAll front)

/-- What may be reported of a gap at the start of a text. -/
inductive GapFault (p : Position) (text : List Char) : Diagnostic → Prop
  | comment {d : Diagnostic} (h : CommentFault p text d) : GapFault p text d
  | disabled {lines : LineRange} : GapFault p text { code := .disabledSection, lines := some lines }

/-- A comment takes a run of the text, and what is reported of it is reported of the run. -/
theorem comment_faults (p : Position) (cs : List Char) :
    ∃ run rest, '(' :: '*' :: cs = run ++ rest ∧ (comment p cs).length = run.length ∧
      ∀ d ∈ (comment p cs).faults, CommentFault p run d := by
  obtain ⟨closed, skipped, rest, rfl, hlength, hrest, hend⟩ :=
    commentFrom_skips p ((p.after '(').after '*') 1 2 none cs (by omega)
  obtain ⟨tooDeep, hfaults, hreported⟩ := hrest.reported hend p
  refine ⟨'(' :: '*' :: skipped, rest, rfl, ?_, fun d hd => ?_⟩
  · rw [comment, hlength, List.length_cons, List.length_cons]
    omega
  rw [hfaults] at hd
  obtain hd | hd := List.mem_append.mp hd
  · obtain ⟨-, rfl⟩ | ⟨front, hfirst, rfl⟩ := hreported
    · cases hd
    · obtain rfl := List.mem_singleton.mp hd
      exact ⟨_, front, .inr rfl, hfirst.opening, rfl⟩
  · split at hd
    · cases hd
    · obtain rfl := List.mem_singleton.mp hd
      exact ⟨_, [], .inl rfl, ⟨skipped, rfl⟩, rfl⟩

variable {p : Position} {text : List Char} {d : Diagnostic}

/-- A fault in a gap has a code of gaps. -/
theorem GapFault.ofGap (h : GapFault p text d) : d.code.ofGap = true := by
  cases h with
  | disabled => rfl
  | comment h =>
    obtain ⟨code, front, rfl | rfl, -, rfl⟩ := h
    · rfl
    · rfl

/-- What is reported of a text is reported of a longer one. -/
theorem GapFault.append (h : GapFault p text d) (rest : List Char) : GapFault p (text ++ rest) d := by
  cases h with
  | disabled => exact .disabled
  | comment h =>
    obtain ⟨code, front, hcode, hfront, rfl⟩ := h
    exact .comment ⟨code, front, hcode, hfront.trans (List.prefix_append _ _), rfl⟩

/-- What is reported behind a run of the text to come is reported of the text with the run. -/
theorem GapFault.of_advance {s : Source} {run rest : List Char} (hs : s.rest = run ++ rest)
    (h : GapFault (s.advance run.length).position (s.advance run.length).rest d) : GapFault s.position s.rest d := by
  rw [Source.position_advance_append hs, Source.rest_advance_append hs] at h
  rw [hs]
  cases h with
  | disabled => exact .disabled
  | comment h =>
    obtain ⟨code, front, hcode, ⟨tail, htail⟩, rfl⟩ := h
    refine .comment ⟨code, run ++ front, hcode, ⟨tail, by rw [← htail]; simp⟩, ?_⟩
    rw [Position.afterAll_append]

/-- A symbol is listed with the faults of the gap before it, and then with its own. -/
theorem Finds.complaints {rules : ScanRules} {s s' : Source} {before : List Diagnostic} {found : Scanned}
    (h : Finds rules s before found s') :
    ∃ gap own, found.faults = before.reverse ++ (gap ++ own) ∧ (∀ d ∈ gap, GapFault s.position s.rest d) ∧
      Complaints rules found.symbol s'.rest own := by
  -- what is skipped adds its faults to the gap
  have hskip : ∀ {s : Source} {run rest after : List Char} {skipped before : List Diagnostic} {found : Scanned},
      (skipLayout s).rest = run ++ rest → (∀ d ∈ skipped, GapFault (skipLayout s).position run d) →
      (∃ gap own, found.faults = (skipped.reverse ++ before).reverse ++ (gap ++ own) ∧
        (∀ d ∈ gap, GapFault ((skipLayout s).advance run.length).position ((skipLayout s).advance run.length).rest d) ∧
        Complaints rules found.symbol after own) →
      ∃ gap own, found.faults = before.reverse ++ (gap ++ own) ∧ (∀ d ∈ gap, GapFault s.position s.rest d) ∧
        Complaints rules found.symbol after own := by
    rintro s run rest after skipped before found hrun hskipped ⟨gap, own, hfaults, hgap, hown⟩
    refine ⟨skipped ++ gap, own, by simp [hfaults], fun d hd => ?_, hown⟩
    refine .of_advance (skipLayout_rest s) ?_
    rw [← skipLayout]
    obtain hd | hd := List.mem_append.mp hd
    · rw [hrun]
      exact (hskipped d hd).append rest
    · exact .of_advance hrun (hgap d hd)
  induction h with
  | finish hrest => exact ⟨[], [], by simp, by simp, .none (by simp [Symbol.endOfInput]) (by simp [Symbol.endOfInput])⟩
  | @comment s s' before rest found hrest less next ih =>
    obtain ⟨run, after, hsplit, hlength, hfaults⟩ := comment_faults (skipLayout s).position rest
    rw [hlength] at ih
    exact hskip (hrest.trans hsplit) (fun d hd => .comment (hfaults d hd)) ih
  | @disabled s s' before rest found hrest hcolumn less next ih =>
    obtain ⟨run, after, hsplit, hlength, -⟩ := disabledSection_skips (skipLayout s).position hcolumn rest
    rw [hlength] at ih
    refine hskip (hrest.trans hsplit) (fun d hd => ?_) ih
    obtain rfl := List.mem_singleton.mp hd
    exact .disabled
  | @symbol s before c rest hrest hcomment hsection =>
    refine ⟨[], _, rfl, by simp, ?_⟩
    rw [Source.rest_advance, hrest]
    exact symbolAt_complaints rules _

/-! ## Symbols with and without complaints -/

/-- Nothing is reported of a symbol that is neither malformed nor invalid, nor a pragma, nor an identifier. -/
theorem Complaints.eq_nil {rules : ScanRules} {u : Symbol} {after : List Char} {own : List Diagnostic}
    (h : Complaints rules u after own)
    (hu : u.token ∉ [.unknown, .malformedInteger, .malformedReal, .malformedString, .ident, .pragma]) : own = [] := by
  cases h with
  | none => rfl
  | character htoken | integer htoken | real htoken | ident htoken | string htoken | pragma htoken => simp [htoken] at hu

/-- Something is reported of every malformed string. -/
theorem Complaints.ne_nil {rules : ScanRules} {u : Symbol} {after : List Char} {own : List Diagnostic}
    (h : Complaints rules u after own) (hu : u.token = .malformedString) : own ≠ [] := by
  cases h with
  | string _ _ _ _ _ hsome => exact hsome
  | none htoken => simp [hu] at htoken
  | character | integer | real | ident | pragma => simp

end Scan

end Modula
