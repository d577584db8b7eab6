import Modula.Symbol.Delimited

/-!
# Strings and pragmas by their parts

A string is its quote, its content and its end, and what is reported of it is told by the content and the end. Every
string has such parts (`string_parts`), and whatever has them is taken for a string (`string_of_parts`). A pragma runs up
to the first closing after its opening, or, if there is none, up to the end of the text (`pragma_parts`).
-/

set_option autoImplicit false

namespace Modula.Scan

/-! ## Strings -/

/-- The content of a string from a position on, in front of a text, with what is reported of it. A backslash starts an
escape sequence if escape sequences are known at all. It takes the next character with it if that may be escaped;
otherwise it stands for itself and is reported, unless the string ends there because a line or the text does. -/
inductive StringContent (quote : Char) (escapes : Bool) (after : List Char) :
    Position → List Char → List Diagnostic → Prop
  | nil {p : Position} : StringContent quote escapes after p [] []
  | plain {p : Position} {c : Char} {body : List Char} {stray : List Diagnostic} (hquote : c ≠ quote)
      (hline : c ≠ '\n') (hescape : escapes = true → c ≠ '\\')
      (next : StringContent quote escapes after (p.after c) body stray) :
      StringContent quote escapes after p (c :: body) stray
  | escape {p : Position} {e : Char} {body : List Char} {stray : List Diagnostic} (hescapes : escapes = true)
      (hknown : isEscapable e = true) (next : StringContent quote escapes after ((p.after '\\').after e) body stray) :
      StringContent quote escapes after p ('\\' :: e :: body) stray
  | stray {p : Position} {e : Char} {body : List Char} {stray : List Diagnostic} (hescapes : escapes = true)
      (hnext : (body ++ after).head? = some e) (hknown : isEscapable e = false) (hline : e ≠ '\n')
      (next : StringContent quote escapes after (p.after '\\') body stray) :
      StringContent quote escapes after p ('\\' :: body) (.ofCharacter .invalidEscape p e :: stray)
  | last {p : Position} (hescapes : escapes = true) (hafter : after = [] ∨ after.head? = some '\n') :
      StringContent quote escapes after p ['\\'] []

/-- How a string that starts at a position ends: with the closing quote, before a line end, or at the end of the text.
Given are the closing characters, the text after them and what is reported. -/
inductive StringEnd (quote : Char) (start : Position) : List Char → List Char → List Diagnostic → Prop
  | quote {after : List Char} : StringEnd quote start [quote] after []
  | line {after : List Char} : StringEnd quote start [] ('\n' :: after) [.atPosition .newlineInString start]
  | text : StringEnd quote start [] [] [.atPosition .unclosedString start]

/-- A string from a place inside it on, where some of it has been read and perhaps some escape sequences have been
reported. -/
theorem stringFrom_parts (quote : Char) (escapes : Bool) (start p : Position) (before : List Char)
    (bad : List Diagnostic) (cs : List Char) :
    ∃ body closing after stray ending, cs = body ++ (closing ++ after) ∧
      stringFrom quote escapes start p before bad cs =
        ⟨if bad.reverse ++ (stray ++ ending) = [] then .string else .malformedString,
          before.reverse ++ (body ++ closing), bad.reverse ++ (stray ++ ending)⟩ ∧
      StringContent quote escapes (closing ++ after) p body stray ∧ StringEnd quote start closing after ending := by
  fun_induction stringFrom quote escapes start p before bad cs with
  | case1 p before bad => exact ⟨[], [], [], [], _, rfl, by simp, .nil, .text⟩
  | case2 p before bad rest =>
    refine ⟨[], [quote], rest, [], [], rfl, ?_, .nil, .quote⟩
    cases bad <;> simp
  | case3 p before bad rest hquote => exact ⟨[], [], '\n' :: rest, [], _, rfl, by simp, .nil, .line⟩
  | case4 p before bad c hquote hline hescape ih =>
    obtain ⟨rfl, hescapes⟩ := hescape
    exact ⟨['\\'], [], [], [], [.atPosition .unclosedString start], rfl, by simp [stringFrom],
      .last hescapes (.inl rfl), .text⟩
  | case5 p before bad c hquote hline hescape e rest hknown ih =>
    obtain ⟨rfl, hescapes⟩ := hescape
    obtain ⟨body, closing, after, stray, ending, rfl, hstring, hbody, hend⟩ := ih
    exact ⟨'\\' :: e :: body, closing, after, stray, ending, rfl, hstring.trans (by simp),
      .escape hescapes hknown hbody, hend⟩
  | case6 p before bad c hquote hline hescape e rest hknown bad₁ ih =>
    obtain ⟨rfl, hescapes⟩ := hescape
    obtain ⟨body, closing, after, stray, ending, hsplit, hstring, hbody, hend⟩ := ih
    have hnext : (body ++ (closing ++ after)).head? = some e := by rw [← hsplit]; rfl
    have hknown' : isEscapable e = false := by simpa using hknown
    by_cases he : e = '\n'
    · -- the string ends there, so the backslash is the last character of its content
      subst he
      obtain ⟨rfl, rfl⟩ : body = [] ∧ stray = [] := by
        cases hbody with
        | nil => exact ⟨rfl, rfl⟩
        | plain hquote' hline' => exact (hline' (Option.some.inj hnext)).elim
        | escape | stray | last => cases hnext
      have hbad : bad₁ = bad := if_pos rfl
      exact ⟨['\\'], closing, after, [], ending, by rw [hsplit]; rfl, hstring.trans (by simp [hbad]),
        .last hescapes (.inr hnext), hend⟩
    · have hbad : bad₁ = .ofCharacter .invalidEscape p e :: bad := if_neg he
      exact ⟨'\\' :: body, closing, after, .ofCharacter .invalidEscape p e :: stray, ending, by rw [hsplit]; rfl,
        hstring.trans (by simp [hbad]), .stray hescapes hnext hknown' he hbody, hend⟩
  | case7 p before bad c rest hquote hline hescape ih =>
    obtain ⟨body, closing, after, stray, ending, rfl, hstring, hbody, hend⟩ := ih
    refine ⟨c :: body, closing, after, stray, ending, rfl, hstring.trans (by simp), .plain hquote hline ?_ hbody, hend⟩
    exact fun hescapes hc => hescape ⟨hc, hescapes⟩

/-- A string is its quote, its content and its end, and is malformed if anything is reported of the two. -/
theorem string_parts (rules : ScanRules) (p : Position) (quote : Char) (rest : List Char) :
    ∃ body closing after stray ending, rest = body ++ (closing ++ after) ∧
      string rules p quote rest =
        ⟨if stray ++ ending = [] then .string else .malformedString, quote :: (body ++ closing), stray ++ ending⟩ ∧
      StringContent quote rules.escapes (closing ++ after) (p.after quote) body stray ∧
      StringEnd quote p closing after ending :=
  stringFrom_parts quote rules.escapes p (p.after quote) [quote] [] rest

/-- A string is no other token, malformed or not. -/
theorem string_ne (rules : ScanRules) (p : Position) (quote : Char) (rest : List Char) {t : Token} (hstring : t ≠ .string)
    (hmalformed : t ≠ .malformedString) : (string rules p quote rest).token ≠ t := by
  obtain ⟨body, closing, after, stray, ending, -, hparts, -⟩ := string_parts rules p quote rest
  rw [hparts]
  dsimp only
  split
  · exact hstring.symm
  · exact hmalformed.symm

variable {rules : ScanRules} {quote : Char} {escapes : Bool} {body closing after after' : List Char} {p start : Position}
  {stray ending : List Diagnostic}

/-- A string goes through its contents up to its end, and is malformed if anything is wrong with either. -/
theorem stringFrom_of_parts (hquote : quote = '\'' ∨ quote = '"')
    (h : StringContent quote escapes (closing ++ after) p body stray) (hend : StringEnd quote start closing after ending)
    (before : List Char) (bad : List Diagnostic) :
    stringFrom quote escapes start p before bad (body ++ (closing ++ after)) =
      ⟨if bad.reverse ++ (stray ++ ending) = [] then .string else .malformedString,
        before.reverse ++ (body ++ closing), bad.reverse ++ (stray ++ ending)⟩ := by
  have hline : quote ≠ '\n' := by obtain rfl | rfl := hquote <;> decide
  have hescape : '\\' ≠ quote := by obtain rfl | rfl := hquote <;> decide
  -- where the content ends, the string does
  have hends : ∀ (p : Position) (before : List Char) (bad : List Diagnostic),
      stringFrom quote escapes start p before bad (closing ++ after) =
        ⟨if bad.reverse ++ ending = [] then .string else .malformedString, before.reverse ++ closing,
          bad.reverse ++ ending⟩ := by
    intro p before bad
    cases hend with
    | quote =>
      rw [List.singleton_append, stringFrom.eq_def]
      cases bad <;> simp
    | line =>
      rw [List.nil_append, stringFrom.eq_def]
      simp [hline.symm]
    | text => simp [stringFrom]
  generalize hrest : closing ++ after = rest at h hends ⊢
  induction h generalizing before bad with
  | nil => simpa using hends _ before bad
  | @plain p c body stray hquote' hline' hescape' next ih =>
    have hplain : ¬(c = '\\' ∧ escapes = true) := fun hc => hescape' hc.2 hc.1
    rw [List.cons_append, stringFrom.eq_def]
    dsimp only
    rw [if_neg hquote', if_neg hline', if_neg hplain, ih]
    simp
  | @escape p e body stray hescapes hknown next ih =>
    rw [List.cons_append, List.cons_append, stringFrom.eq_def]
    dsimp only
    rw [if_neg hescape, if_neg (by decide), if_pos ⟨rfl, hescapes⟩, if_pos hknown, ih]
    simp
  | @stray p e body stray hescapes hnext hknown hline' next ih =>
    obtain ⟨others, hothers⟩ := List.head?_eq_some_iff.mp hnext
    have hrun := ih ('\\' :: before) (.ofCharacter .invalidEscape p e :: bad)
    rw [hothers] at hrun
    rw [List.cons_append, hothers, stringFrom.eq_def]
    dsimp only
    rw [if_neg hescape, if_neg (by decide), if_pos ⟨rfl, hescapes⟩, if_neg (by simp [hknown]), if_neg hline', hrun]
    simp
  | @last p hescapes hafter =>
    have hrun := hends (p.after '\\') ('\\' :: before) bad
    rw [List.cons_append, List.nil_append, stringFrom.eq_def]
    dsimp only
    rw [if_neg hescape, if_neg (by decide), if_pos ⟨rfl, hescapes⟩]
    obtain rfl | hafter := hafter
    · simpa using hrun
    · obtain ⟨others, rfl⟩ := List.head?_eq_some_iff.mp hafter
      simpa [isEscapable] using hrun

/-- What has the parts of a string is taken for one. -/
theorem string_of_parts (hquote : quote = '\'' ∨ quote = '"')
    (h : StringContent quote rules.escapes (closing ++ after) (p.after quote) body stray)
    (hend : StringEnd quote p closing after ending) :
    string rules p quote (body ++ (closing ++ after)) =
      ⟨if stray ++ ending = [] then .string else .malformedString, quote :: (body ++ closing), stray ++ ending⟩ :=
  stringFrom_of_parts hquote h hend [quote] []

/-- The content of a string depends on the text after it only by the first character of that. -/
theorem StringContent.of_head (h : StringContent quote escapes after p body stray)
    (hafter : after'.head? = after.head?) : StringContent quote escapes after' p body stray := by
  induction h with
  | nil => exact .nil
  | plain hquote hline hescape next ih => exact .plain hquote hline hescape ih
  | escape hescapes hknown next ih => exact .escape hescapes hknown ih
  | @stray p e body stray hescapes hnext hknown hline next ih =>
    refine .stray hescapes ?_ hknown hline ih
    rw [← hnext, List.head?_append, List.head?_append, hafter]
  | last hescapes hend =>
    refine .last hescapes ?_
    rwa [← List.head?_eq_none_iff, hafter, List.head?_eq_none_iff]

/-! ### What is reported of a string -/

/-- All that can be wrong in a string are escapes. -/
theorem StringContent.code_eq (h : StringContent quote escapes after p body stray) :
    ∀ d ∈ stray, d.code = .invalidEscape := by
  induction h with
  | nil | last => simp
  | plain _ _ _ next ih | escape _ _ next ih => exact ih
  | stray _ _ _ _ next ih => exact List.forall_mem_cons.mpr ⟨rfl, ih⟩

/-- Two things can be wrong at its end. -/
theorem StringEnd.code_mem (h : StringEnd quote start closing after ending) :
    ∀ d ∈ ending, d.code = .newlineInString ∨ d.code = .unclosedString := by
  cases h <;> simp [Diagnostic.atPosition]

/-- No line ends within the content of a string. -/
theorem StringContent.line_not_mem (h : StringContent quote escapes after p body stray) : '\n' ∉ body := by
  induction h with
  | nil | last => simp
  | plain _ hline _ next ih => simpa using ⟨Ne.symm hline, ih⟩
  | @escape p e body stray _ hknown next ih =>
    have he : '\n' ≠ e := by
      rintro rfl
      cases hknown
    simpa using ⟨he, ih⟩
  | stray _ _ _ _ next ih => simpa using ih

/-! ## Pragmas -/

/-- A pragma runs up to the first closing after its opening. If there is none, it takes the rest of the text, and that is
reported. -/
theorem pragmaFrom_parts (start : Position) (before cs : List Char) :
    (∃ content after, cs = content ++ '*' :: '>' :: after ∧ ¬['*', '>'] <:+: content ++ ['*'] ∧
      pragmaFrom start before cs = ⟨.pragma, before.reverse ++ (content ++ ['*', '>']), []⟩) ∨
      pragmaFrom start before cs = ⟨.pragma, before.reverse ++ cs, [.atPosition .unclosedPragma start]⟩ := by
  fun_induction pragmaFrom start before cs with
  | case1 before rest => exact .inl ⟨[], rest, rfl, by decide, by simp⟩
  | case2 before c rest hclose ih =>
    obtain ⟨content, after, rfl, hcontent, hpragma⟩ | hpragma := ih
    · refine .inl ⟨c :: content, after, rfl, fun hinfix => ?_, hpragma.trans (by simp)⟩
      obtain hprefix | hinfix := List.infix_cons_iff.mp hinfix
      · obtain ⟨tail, htail⟩ := hprefix
        obtain ⟨hstar, hgreater⟩ := List.cons.inj htail
        cases content with
        | nil => cases hgreater
        | cons d content =>
          obtain ⟨rfl, -⟩ := List.cons.inj hgreater
          exact hclose _ hstar.symm rfl
      · exact hcontent hinfix
    · exact .inr (hpragma.trans (by simp))
  | case3 before => exact .inr (by simp)

/-- A pragma goes up to the first closing mark, or to the end of the text. -/
theorem pragma_parts (p : Position) (rest : List Char) :
    (∃ content after, rest = content ++ '*' :: '>' :: after ∧ ¬['*', '>'] <:+: content ++ ['*'] ∧
      pragma p rest = ⟨.pragma, '<' :: '*' :: (content ++ ['*', '>']), []⟩) ∨
      pragma p rest = ⟨.pragma, '<' :: '*' :: rest, [.atPosition .unclosedPragma p]⟩ :=
  pragmaFrom_parts p ['*', '<'] rest

/-- Closed or not, a pragma is one. -/
theorem pragma_token (p : Position) (rest : List Char) : (pragma p rest).token = .pragma := by
  obtain ⟨content, after, -, -, hpragma⟩ | hpragma := pragma_parts p rest
  all_goals rw [hpragma]

/-- Contents without a closing mark are passed up to the mark. -/
theorem pragmaFrom_closed (start : Position) (before content rest : List Char)
    (h : ¬['*', '>'] <:+: content ++ ['*']) :
    pragmaFrom start before (content ++ '*' :: '>' :: rest) =
      ⟨.pragma, before.reverse ++ (content ++ ['*', '>']), []⟩ := by
  induction content generalizing before with
  | nil => simp [pragmaFrom]
  | cons c content ih =>
    have hopen : ∀ tail, c = '*' → content ++ '*' :: '>' :: rest = '>' :: tail → False := by
      rintro tail rfl htail
      cases content with
      | nil => simp at htail
      | cons d content =>
        obtain ⟨rfl, -⟩ := List.cons.inj htail
        exact h ⟨[], content ++ ['*'], rfl⟩
    have hrest : ¬['*', '>'] <:+: content ++ ['*'] := fun hinfix => h (List.infix_cons hinfix)
    rw [List.cons_append, pragmaFrom.eq_2 _ _ _ _ hopen, ih _ hrest]
    simp

/-- A pragma ends where it is closed for the first time. -/
theorem pragma_closed (p : Position) {content : List Char} (rest : List Char)
    (h : ¬['*', '>'] <:+: content ++ ['*']) :
    pragma p (content ++ '*' :: '>' :: rest) = ⟨.pragma, '<' :: '*' :: (content ++ ['*', '>']), []⟩ :=
  pragmaFrom_closed p ['*', '<'] content rest h

end Modula.Scan
