import Modula.Symbol.Scan

/-!
# Gaps between symbols

What may stand between two symbols is said here without the scanner: blanks, tabs and line ends, comments whose marks
balance, and disabled sections, which take whole lines. At the end of a text the last comment or section may lack its
end. Then it is shown that skipping a comment or a section takes exactly such a text: `comment_skips` and
`disabledSection_skips`.
-/

set_option autoImplicit false

namespace Modula.Scan

/-! ## Comments -/

/-- Whether the next two characters open or close a comment. -/
def isCommentMark (cs : List Char) : Bool := cs.take 2 = ['(', '*'] ∨ cs.take 2 = ['*', ')']

/-- A character that begins no mark is skipped by itself. -/
theorem commentFrom_other (start p : Position) (depth length : Nat) (tooDeep : Option Position) {c : Char}
    {cs : List Char} (h : isCommentMark (c :: cs) = false) :
    commentFrom start p depth length tooDeep (c :: cs) = commentFrom start (p.after c) depth (length + 1) tooDeep cs := by
  apply commentFrom.eq_3
  · rintro rest rfl rfl
    simp [isCommentMark] at h
  · rintro rest rfl rfl
    simp [isCommentMark] at h

/-- A text inside so many nested comments: it either closes all of them, by its last two characters, or ends inside
one. No character belongs to two marks. -/
inductive CommentRest : (closed : Bool) → (depth : Nat) → List Char → Prop
  | closed : CommentRest true 1 ['*', ')']
  | unclosed {depth : Nat} : CommentRest false (depth + 1) []
  | opening {closed : Bool} {depth : Nat} {cs : List Char} (h : CommentRest closed (depth + 2) cs) :
      CommentRest closed (depth + 1) ('(' :: '*' :: cs)
  | closing {closed : Bool} {depth : Nat} {cs : List Char} (h : CommentRest closed (depth + 1) cs) :
      CommentRest closed (depth + 2) ('*' :: ')' :: cs)
  | other {closed : Bool} {depth : Nat} {c : Char} {cs : List Char} (hc : isCommentMark (c :: cs) = false)
      (h : CommentRest closed depth cs) : CommentRest closed depth (c :: cs)

/-- A text that closes comments does not end in the first half of a mark, so what follows it cannot complete one. -/
theorem CommentRest.isCommentMark_append {depth : Nat} {cs : List Char} (h : CommentRest true depth cs) (c : Char)
    (rest : List Char) : isCommentMark (c :: (cs ++ rest)) = isCommentMark (c :: cs) := by
  cases cs with
  | nil => cases h
  | cons d cs => simp [isCommentMark]

/-- What skipping the rest of a comment takes: a text that closes the comments open before it, or, if there is none,
everything that is left. -/
theorem commentFrom_skips (start p : Position) (depth length : Nat) (tooDeep : Option Position) (cs : List Char)
    (hdepth : 0 < depth) :
    ∃ (closed : Bool) (skipped rest : List Char), cs = skipped ++ rest ∧
      (commentFrom start p depth length tooDeep cs).length = length + skipped.length ∧
      CommentRest closed depth skipped ∧ (closed = false → rest = []) := by
  fun_induction commentFrom start p depth length tooDeep cs with
  -- one more comment opens
  | case1 p depth length tooDeep rest ih =>
    obtain ⟨closed, skipped, rest', rfl, hlen, hrest, hend⟩ := ih (by omega)
    obtain ⟨outer, rfl⟩ : ∃ outer, depth = outer + 1 := ⟨depth - 1, by omega⟩
    refine ⟨closed, '(' :: '*' :: skipped, rest', by simp, ?_, .opening hrest, hend⟩
    simp only [hlen, List.length_cons]
    omega
  -- the outermost comment closes, or another one does
  | case2 p length tooDeep rest => exact ⟨true, ['*', ')'], rest, rfl, rfl, .closed, by simp⟩
  | case3 p depth length tooDeep rest hne ih =>
    obtain ⟨closed, skipped, rest', rfl, hlen, hrest, hend⟩ := ih (by omega)
    obtain ⟨outer, rfl⟩ : ∃ outer, depth = outer + 2 := ⟨depth - 2, by omega⟩
    refine ⟨closed, '*' :: ')' :: skipped, rest', by simp, ?_, .closing hrest, hend⟩
    simp only [hlen, List.length_cons]
    omega
  | case4 p depth length tooDeep c rest hopen hclose ih =>
    obtain ⟨closed, skipped, rest', rfl, hlen, hrest, hend⟩ := ih hdepth
    refine ⟨closed, c :: skipped, rest', by simp, ?_, ?_, hend⟩
    · simp only [hlen, List.length_cons]
      omega
    · have hmark : isCommentMark (c :: (skipped ++ rest')) = false := by
        cases hcs : skipped ++ rest' with
        | nil => simp [isCommentMark]
        | cons d cs =>
          have h₁ : c = '(' → d ≠ '*' := fun hc hd => hopen cs hc (by rw [hcs, hd])
          have h₂ : c = '*' → d ≠ ')' := fun hc hd => hclose cs hc (by rw [hcs, hd])
          simp only [isCommentMark, List.take_succ_cons, List.take_zero, List.cons.injEq, and_true, decide_eq_false_iff_not,
            not_or, not_and]
          exact ⟨h₁, h₂⟩
      refine .other ?_ hrest
      cases closed with
      | true => rwa [hrest.isCommentMark_append] at hmark
      | false =>
        rw [hend rfl, List.append_nil] at hmark
        exact hmark
  | case5 p depth length tooDeep =>
    obtain ⟨outer, rfl⟩ : ∃ outer, depth = outer + 1 := ⟨depth - 1, by omega⟩
    exact ⟨false, [], [], rfl, rfl, .unclosed, by simp⟩

/-! ## Disabled sections -/

/-- Whether a line that starts here closes a disabled section. -/
def closesSection (cs : List Char) : Bool := cs.take 2 = ['>', '?']

/-- Two characters decide whether a section is closed. -/
theorem closesSection_cons (c : Char) (cs : List Char) :
    closesSection (c :: cs) = (c == '>' && cs.head? == some '?') := by
  cases cs with
  | nil => simp [closesSection]
  | cons d cs => by_cases hc : c = '>' <;> by_cases hd : d = '?' <;> simp [closesSection, hc, hd]

/-- The rest of a disabled section from a place inside a line on, where it is given whether that line closes the
section. The section either ends with the line end of its closing line, or is cut short by the end of the text. -/
inductive SectionRest : (ended : Bool) → (closes : Bool) → List Char → Prop
  | ended : SectionRest true true ['\n']
  | cut {closes : Bool} : SectionRest false closes []
  | line {ended : Bool} {cs : List Char} (h : SectionRest ended (closesSection cs) cs) :
      SectionRest ended false ('\n' :: cs)
  | other {ended closes : Bool} {c : Char} {cs : List Char} (hc : c ≠ '\n') (h : SectionRest ended closes cs) :
      SectionRest ended closes (c :: cs)

/-- A section that has ended holds its last line to the end, so what follows it cannot make that line a closing one. -/
theorem SectionRest.closesSection_append {closes : Bool} {cs : List Char} (h : SectionRest true closes cs)
    (rest : List Char) : closesSection (cs ++ rest) = closesSection cs := by
  match cs, h with
  | ['\n'], .ended => simp [closesSection]
  | _ :: [], .other _ h => cases h
  | _ :: _ :: _, _ => simp [closesSection]

/-- What skipping the lines of a disabled section takes: a text up to the end of the closing line, or, if there is
none, everything that is left. -/
theorem linesFrom_skips (line : Nat) (closes : Bool) (length : Nat) (cs : List Char) :
    ∃ (ended : Bool) (skipped rest : List Char), cs = skipped ++ rest ∧
      (linesFrom line closes length cs).2 = length + skipped.length ∧
      SectionRest ended closes skipped ∧ (ended = false → rest = []) := by
  fun_induction linesFrom line closes length cs with
  | case1 line closes length => exact ⟨false, [], [], rfl, rfl, .cut, by simp⟩
  | case2 line length rest => exact ⟨true, ['\n'], rest, rfl, rfl, .ended, by simp⟩
  | case3 line closes length hcloses =>
    obtain rfl : closes = false := by simpa using hcloses
    exact ⟨false, ['\n'], [], rfl, rfl, .line .cut, by simp⟩
  | case4 line closes length hcloses c rest ih =>
    obtain rfl : closes = false := by simpa using hcloses
    obtain ⟨ended, skipped, rest', hcs, hlen, hrest, hend⟩ := ih
    refine ⟨ended, '\n' :: skipped, rest', by simp [hcs], ?_, .line ?_, hend⟩
    · simp only [hlen, List.length_cons]
      omega
    · rw [← closesSection_cons, hcs] at hrest
      cases ended with
      | true => rwa [hrest.closesSection_append] at hrest
      | false => simpa [hend rfl] using hrest
  | case5 line closes length c rest hc ih =>
    obtain ⟨ended, skipped, rest', rfl, hlen, hrest, hend⟩ := ih
    refine ⟨ended, c :: skipped, rest', by simp, ?_, .other (fun h => hc h) hrest, hend⟩
    simp only [hlen, List.length_cons]
    omega

/-! ## Gaps -/

/-- A text between two symbols, or after the last one, that starts at a position. A comment or a section without an end
may stand only at the end of the gap after the last symbol. -/
inductive Gap : (final : Bool) → Position → List Char → Prop
  | nil {final : Bool} {p : Position} : Gap final p []
  | layout {final : Bool} {p : Position} {c : Char} {g : List Char} (hc : c = ' ' ∨ c = '\t' ∨ c = '\n')
      (h : Gap final (p.after c) g) : Gap final p (c :: g)
  | comment {final : Bool} {p : Position} {cs g : List Char} (hcs : CommentRest true 1 cs)
      (h : Gap final (p.afterAll ('(' :: '*' :: cs)) g) : Gap final p ('(' :: '*' :: cs ++ g)
  | disabled {final : Bool} {p : Position} {cs g : List Char} (hp : p.column = 1)
      (hcs : SectionRest true false ('?' :: '<' :: cs)) (h : Gap final (p.afterAll ('?' :: '<' :: cs)) g) :
      Gap final p ('?' :: '<' :: cs ++ g)
  | openComment {p : Position} {cs : List Char} (hcs : CommentRest false 1 cs) : Gap true p ('(' :: '*' :: cs)
  | openSection {p : Position} {cs : List Char} (hp : p.column = 1)
      (hcs : SectionRest false false ('?' :: '<' :: cs)) : Gap true p ('?' :: '<' :: cs)

/-- Blanks, tabs and line ends are layout. -/
theorem isLayout_iff {c : Char} : isLayout c = true ↔ c = ' ' ∨ c = '\t' ∨ c = '\n' := by
  simp [isLayout, or_assoc]

/-- Layout in front of a gap belongs to the gap. -/
theorem Gap.layout_append {final : Bool} {p : Position} {cs g : List Char} (hcs : ∀ c ∈ cs, isLayout c = true)
    (h : Gap final (p.afterAll cs) g) : Gap final p (cs ++ g) := by
  induction cs generalizing p with
  | nil => exact h
  | cons c cs ih =>
    have hc := isLayout_iff.mp (hcs c (by simp))
    exact .layout hc (ih (fun d hd => hcs d (by simp [hd])) h)

/-- Skipping a comment takes a gap of its own, which is the last one if the comment is not closed. -/
theorem comment_skips (p : Position) (cs : List Char) :
    ∃ skipped rest : List Char, '(' :: '*' :: cs = skipped ++ rest ∧ (comment p cs).length = skipped.length ∧
      skipped ≠ [] ∧ ((∀ (final : Bool) (g : List Char), Gap final (p.afterAll skipped) g → Gap final p (skipped ++ g)) ∨
        rest = [] ∧ Gap true p skipped) := by
  obtain ⟨closed, skipped, rest, rfl, hlen, hrest, hend⟩ :=
    commentFrom_skips p ((p.after '(').after '*') 1 2 none cs (by omega)
  refine ⟨'(' :: '*' :: skipped, rest, rfl, ?_, by simp, ?_⟩
  · simp only [comment, hlen, List.length_cons]
    omega
  · cases closed with
    | true => exact .inl fun final g hg => .comment hrest hg
    | false => exact .inr ⟨hend rfl, .openComment hrest⟩

/-- Skipping a disabled section takes a gap of its own, which is the last one if the section is cut short. -/
theorem disabledSection_skips (p : Position) (hp : p.column = 1) (cs : List Char) :
    ∃ skipped rest : List Char, '?' :: '<' :: cs = skipped ++ rest ∧
      (disabledSection p.line ('?' :: '<' :: cs)).length = skipped.length ∧ skipped ≠ [] ∧
      ((∀ (final : Bool) (g : List Char), Gap final (p.afterAll skipped) g → Gap final p (skipped ++ g)) ∨
        rest = [] ∧ Gap true p skipped) := by
  obtain ⟨ended, skipped, rest, hcs, hlen, hrest, hend⟩ := linesFrom_skips p.line false 0 ('?' :: '<' :: cs)
  -- the section holds the two characters that open it
  obtain ⟨tail, rfl⟩ : ∃ tail, skipped = '?' :: '<' :: tail := by
    cases hrest with
    | cut => simp [hend rfl] at hcs
    | line => simp at hcs
    | other hc h =>
      cases h with
      | cut => simp [hend rfl] at hcs
      | line => simp at hcs
      | other hd h =>
        simp only [List.cons_append, List.cons.injEq] at hcs
        exact ⟨_, by rw [← hcs.1, ← hcs.2.1]⟩
  refine ⟨'?' :: '<' :: tail, rest, hcs, ?_, by simp, ?_⟩
  · simpa [disabledSection] using hlen
  · cases ended with
    | true => exact .inl fun final g hg => .disabled hp hrest hg
    | false => exact .inr ⟨hend rfl, .openSection hp hrest⟩

end Modula.Scan
