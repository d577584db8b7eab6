import Modula.Proofs.Reader.Stream

/-!
# What actions do to the symbols ahead

Of all that a parse has in its state, only the symbols ahead decide how it goes on. Each action looks at the first or
the second of them, takes the first one, or leaves them alone (`Action.leaves`). Pragmas are passed on the way, and a
state is `Ready` if there are as many symbols as that may take.
-/

set_option autoImplicit false

namespace Modula

/-- Only literals can be malformed. -/
theorem wellFormed_eq_iff {t u : Token}
    (hu : u ∉ [(.string : Token), .integer, .real, .malformedString, .malformedInteger, .malformedReal]) :
    t.wellFormed = u ↔ t = u := by
  simp only [List.mem_cons, List.not_mem_nil, or_false, not_or] at hu
  obtain ⟨hstring, hinteger, hreal, hstring', hinteger', hreal'⟩ := hu
  cases t <;> simp [Token.wellFormed, *, Ne.symm]

/-- The token of the first symbol ahead, or the end of the input. -/
def firstToken (ahead : List Symbol) : Token := (ahead.headD (.endOfInput .start)).token

/-- With no symbols ahead the end comes first. -/
@[simp] theorem firstToken_nil : firstToken [] = .eof := rfl

/-- The first symbol ahead tells the token. -/
@[simp] theorem firstToken_cons (s : Symbol) (others : List Symbol) : firstToken (s :: others) = s.token := rfl

namespace SymbolReader

variable {r r' : SymbolReader}

/-- The next token is the first one ahead. -/
theorem Ends.next_token (h : r.Ends) : r.next.token = firstToken r.ahead := by
  rw [h.next_eq]
  cases r.ahead with
  | nil => exact h.last
  | cons s others => rfl

/-- When the end of the input comes next, no symbol is ahead and all have come into view. -/
theorem Ends.at_end (h : r.Ends) (heof : firstToken r.ahead = .eof) : r.ahead = [] ∧ r.unseen = [] := by
  rw [← h.next_token] at heof
  exact ⟨h.ahead_eq_nil_iff.mpr heof, h.unseen_eq_nil heof⟩

/-- The token after the next one is the second one ahead. -/
theorem Ends.second_token (h : r.Ends) : r.peekSecond.1.token = firstToken r.ahead.tail := by
  rw [h.second_eq]
  cases r.ahead.tail with
  | nil => exact h.last
  | cons s others => rfl

/-! ## Passing pragmas -/

/-- The symbols from the first one on that is no pragma. -/
def withoutPragmas (ahead : List Symbol) : List Symbol := ahead.dropWhile (·.token = .pragma)

/-- Reading on until the next symbol is no pragma. Each pragma that is passed is one of the symbols ahead. -/
inductive Passes : SymbolReader → SymbolReader → Prop
  | stop {r : SymbolReader} (h : r.next.token ≠ .pragma) : Passes r r
  | pass {r r' : SymbolReader} (h : r.next.token = .pragma) (less : r.read.ahead.length < r.ahead.length)
      (next : Passes r.read r') : Passes r r'

/-- With steps enough all pragmas are passed. -/
theorem passes_skipPragmasWithin (n : Nat) (h : r.Ends) (hn : r.ahead.length ≤ n) :
    Passes r (skipPragmasWithin n r) := by
  induction n generalizing r with
  | zero =>
    have hnil : r.ahead = [] := List.length_eq_zero_iff.mp (by omega)
    refine .stop ?_
    rw [h.next_token, hnil]
    simp
  | succ n ih =>
    unfold skipPragmasWithin
    split
    · next hpragma =>
      have hne : r.ahead ≠ [] := by
        intro hnil
        rw [h.next_token, hnil] at hpragma
        cases hpragma
      have hpos : 0 < r.ahead.length := List.length_pos_iff.mpr hne
      have hlen : r.read.ahead.length = r.ahead.length - 1 := by rw [h.read.1, List.length_tail]
      exact .pass hpragma (by omega) (ih h.read.2 (by omega))
    · next hpragma => exact .stop hpragma

/-- Passing pragmas takes them and nothing else. -/
theorem Passes.ends (h : Passes r r') (hr : r.Ends) :
    r'.Ends ∧ r'.ahead = withoutPragmas r.ahead ∧ r'.total = r.total := by
  induction h with
  | @stop r h =>
    refine ⟨hr, ?_, rfl⟩
    rw [hr.next_token] at h
    unfold withoutPragmas
    cases hahead : r.ahead with
    | nil => rfl
    | cons s others => simp_all
  | @pass r r' h less next ih =>
    obtain ⟨hends, hahead, htotal⟩ := ih hr.read.2
    refine ⟨hends, ?_, by rw [htotal, total_read]⟩
    rw [hr.next_token] at h
    rw [hahead, hr.read.1]
    unfold withoutPragmas
    cases hahead : r.ahead with
    | nil => rfl
    | cons s others => simp_all

/-- What is left behind pragmas was ahead before. -/
theorem withoutPragmas_suffix (ahead : List Symbol) : withoutPragmas ahead <:+ ahead := List.dropWhile_suffix _

/-- Pragmas are passed once. -/
theorem withoutPragmas_idem (ahead : List Symbol) :
    withoutPragmas (withoutPragmas ahead) = withoutPragmas ahead := by
  unfold withoutPragmas
  induction ahead with
  | nil => rfl
  | cons s others ih =>
    by_cases hs : s.token = .pragma
    · simp [hs, ih]
    · simp [hs]

end SymbolReader

open SymbolReader

/-! ## Ready states -/

namespace ParserState

/-- The number of symbols ahead. -/
def remaining (s : ParserState) : Nat := s.reader.ahead.length

/-- A state whose reader ends properly and has no more symbols ahead than it counts. -/
structure Ready (s : ParserState) : Prop where
  ends : s.reader.Ends
  enough : s.reader.ahead.length ≤ s.reader.total

variable {s : ParserState}

/-- Both before and after reading a symbol, passing pragmas goes on until there is no pragma. -/
theorem Ready.passes (h : s.Ready) :
    Passes s.reader s.reader.skipPragmas ∧ Passes s.reader.read s.reader.read.skipPragmas := by
  have hlen : s.reader.read.ahead.length = s.reader.ahead.length - 1 := by rw [h.ends.read.1, List.length_tail]
  have henough := h.enough
  refine ⟨passes_skipPragmasWithin _ h.ends henough, passes_skipPragmasWithin _ h.ends.read.2 ?_⟩
  rw [total_read]
  omega

/-- Settling passes the pragmas ahead, and leaves a state that may go on. -/
theorem Ready.settle (h : s.Ready) : s.settle.Ready ∧ s.settle.reader.ahead = withoutPragmas s.reader.ahead := by
  obtain ⟨hends, hahead, htotal⟩ := h.passes.1.ends h.ends
  have hlen := (withoutPragmas_suffix s.reader.ahead).length_le
  have henough := h.enough
  refine ⟨⟨hends, ?_⟩, hahead⟩
  simp only [ParserState.settle, skipPragmas] at hahead htotal ⊢
  rw [hahead, htotal]
  omega

/-- Whether a state is ready depends on the symbols still to be read only. -/
theorem Ready.of_pending {t : ParserState} (h : s.Ready) (hpending : t.reader.pending = s.reader.pending)
    (hunseen : t.reader.unseen = s.reader.unseen) (hlast : t.reader.last = s.reader.last)
    (htotal : t.reader.total = s.reader.total) : t.Ready ∧ t.reader.ahead = s.reader.ahead := by
  have hahead : t.reader.ahead = s.reader.ahead := by rw [ahead, hpending, ahead]
  refine ⟨⟨⟨?_, ?_⟩, ?_⟩, hahead⟩
  · rw [hlast]
    exact h.ends.last
  · rw [hpending, hahead, hunseen, hlast]
    exact h.ends.ends
  · rw [hahead, htotal]
    exact h.enough

/-- A warning leaves the symbols ahead. -/
theorem Ready.warn (h : s.Ready) (code : Code) (p : Position) :
    (s.warn code p).Ready ∧ (s.warn code p).reader.ahead = s.reader.ahead := by
  unfold ParserState.warn
  split
  · exact ⟨h, rfl⟩
  · exact h.of_pending rfl rfl rfl rfl

/-- Accepting a symbol takes the first one ahead and the pragmas after it. -/
theorem Ready.accept (h : s.Ready) :
    ({ s with reader := s.reader.read, accepted := s.reader.read.current }.settle).Ready ∧
      ({ s with reader := s.reader.read, accepted := s.reader.read.current }.settle).reader.ahead =
        withoutPragmas s.reader.ahead.tail := by
  have hread : ({ s with reader := s.reader.read, accepted := s.reader.read.current } : ParserState).Ready := by
    refine ⟨h.ends.read.2, ?_⟩
    have hlen : s.reader.read.ahead.length = s.reader.ahead.length - 1 := by rw [h.ends.read.1, List.length_tail]
    have henough := h.enough
    show s.reader.read.ahead.length ≤ s.reader.read.total
    rw [total_read]
    omega
  refine ⟨hread.settle.1, ?_⟩
  rw [hread.settle.2, ← h.ends.read.1]

/-- So does asking for the second symbol. -/
theorem Ready.peekSecond (h : s.Ready) :
    ({ s with reader := s.reader.peekSecond.2 } : ParserState).Ready ∧
      s.reader.peekSecond.2.ahead = s.reader.ahead := by
  refine ⟨⟨h.ends.peekSecond.2, ?_⟩, h.ends.peekSecond.1⟩
  show s.reader.peekSecond.2.ahead.length ≤ s.reader.peekSecond.2.total
  rw [h.ends.peekSecond.1, total_peekSecond]
  exact h.enough

end ParserState

namespace Action

/-- What an action yields and leaves of the symbols ahead. -/
def leaves {α : Type} : Action α → List Symbol → α → List Symbol → Prop
  | .lookahead, ahead, t, left => left = withoutPragmas ahead ∧ t = (firstToken left).wellFormed
  | .qualifies, ahead, b, left =>
    left = withoutPragmas ahead ∧ b = decide (firstToken left = .dot ∧ firstToken left.tail = .ident)
  | .accept, ahead, lexeme, left =>
    left = withoutPragmas ahead.tail ∧ ∀ s ∈ ahead.head?, lexeme = s.lexeme
  | .enter _, ahead, _, left => left = ahead ∨ left = withoutPragmas ahead
  | .reject _, ahead, _, left | .warnNext _, ahead, _, left | .warnAccepted _, ahead, _, left
  | .rejectClosing _, ahead, _, left | .skipped _, ahead, _, left => left = ahead
  | .build node, ahead, built, left => left = ahead ∧ built = node.toOption.getD .empty

variable {α : Type} {s : ParserState}

/-- A state stays ready, and the symbols ahead change, as the action says. -/
theorem perform_leaves (action : Action α) (h : s.Ready) :
    (action.perform s).2.Ready ∧ action.leaves s.reader.ahead (action.perform s).1 (action.perform s).2.reader.ahead := by
  cases action with
  | lookahead =>
    refine ⟨h.settle.1, h.settle.2, ?_⟩
    show s.settle.reader.next.token.wellFormed = (firstToken s.settle.reader.ahead).wellFormed
    rw [h.settle.1.ends.next_token]
  | qualifies =>
    obtain ⟨hsettled, hahead⟩ := h.settle
    have hfirst := hsettled.ends.next_token
    simp only [perform]
    split
    · next hdot =>
      have hsame := hsettled.peekSecond.2
      refine ⟨hsettled.peekSecond.1, hsame.trans hahead, ?_⟩
      rw [hsame, ← hfirst, hdot, hsettled.ends.second_token]
      simp
    · next hdot =>
      refine ⟨hsettled, hahead, ?_⟩
      rw [← hfirst]
      simp [hdot]
  | accept =>
    refine ⟨h.accept.1, h.accept.2, ?_⟩
    intro first hfirst
    show s.reader.read.current.lexeme = first.lexeme
    rw [current_read, h.ends.next_eq, List.headD_eq_head?_getD, Option.mem_def.mp hfirst, Option.getD_some]
  | enter p =>
    simp only [perform]
    split
    · obtain ⟨hready, hahead⟩ := h.settle
      obtain ⟨hlogged, hsame⟩ := hready.of_pending
        (t := s.settle.log (.entered p s.settle.reader.next.position s.settle.reader.next.token.wellFormed)) rfl rfl rfl rfl
      exact ⟨hlogged, .inr (hsame.trans hahead)⟩
    · exact ⟨h, .inl rfl⟩
  | reject expected => exact h.of_pending rfl rfl rfl rfl
  | warnNext code => exact h.warn code _
  | warnAccepted code => exact h.warn code _
  | rejectClosing closing => exact h.of_pending rfl rfl rfl rfl
  | skipped n =>
    simp only [perform]
    split
    · exact h.of_pending rfl rfl rfl rfl
    · exact ⟨h, rfl⟩
  | build node =>
    cases node with
    | ok node => exact ⟨h, rfl, rfl⟩
    | error e =>
      simp only [perform]
      split
      · obtain ⟨hready, hahead⟩ := h.of_pending
          (t := { s with dropped := s.dropped + 1 }.log (.dropped s.reader.filename s.accepted.position.line e))
          rfl rfl rfl rfl
        exact ⟨hready, hahead, rfl⟩
      · split
        · obtain ⟨hready, hahead⟩ := h.of_pending (t := s.log (.degraded e)) rfl rfl rfl rfl
          exact ⟨hready, hahead, rfl⟩
        · exact ⟨h, rfl, rfl⟩

end Action

end Modula
