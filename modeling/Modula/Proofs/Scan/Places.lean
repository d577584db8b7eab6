import Mathlib.Data.List.Forall2
import Modula.Proofs.Scan.Reading

/-!
# Scanning at another place

What the scanner finds does not depend on the place where it stands in a text, but for one thing: a disabled section
starts only at the beginning of a line. So a text that is moved to another place is read as the same symbols
(`Reads.moved`), and what is reported of them differs in nothing but places.
-/

set_option autoImplicit false

namespace Modula

/-- A diagnostic without the place and the line it points at. -/
def Diagnostic.unplaced (d : Diagnostic) : Diagnostic := { d with position := none, lines := none, sourceLine := none }

/-- An error is one wherever it is. -/
@[simp] theorem Diagnostic.isError_unplaced (d : Diagnostic) : d.unplaced.isError = d.isError := rfl

/-- Of a diagnostic at a position only the code is left. -/
@[simp] theorem Diagnostic.unplaced_atPosition (code : Code) (p : Position) :
    (Diagnostic.atPosition code p).unplaced = { code := code } := rfl

/-- Of a diagnostic with characters these are left, too. -/
@[simp] theorem Diagnostic.unplaced_ofLexeme (code : Code) (p : Position) (lexeme : String) :
    (Diagnostic.ofLexeme code p lexeme).unplaced = { code := code, lexeme := some lexeme } := rfl

/-- Of a diagnostic with one character that is left, too. -/
@[simp] theorem Diagnostic.unplaced_ofCharacter (code : Code) (p : Position) (c : Char) :
    (Diagnostic.ofCharacter code p c).unplaced = { code := code, character := some c } := rfl

/-- Faults without places. -/
def unplacedAll (faults : List Diagnostic) : List Diagnostic := faults.map Diagnostic.unplaced

/-- No diagnostics, with places or without. -/
@[simp] theorem unplacedAll_nil : unplacedAll [] = [] := rfl

/-- Diagnostics lose their places one by one. -/
@[simp] theorem unplacedAll_cons (d : Diagnostic) (faults : List Diagnostic) :
    unplacedAll (d :: faults) = d.unplaced :: unplacedAll faults := rfl

/-- Diagnostics lose their places in their order. -/
@[simp] theorem unplacedAll_append (faults faults' : List Diagnostic) :
    unplacedAll (faults ++ faults') = unplacedAll faults ++ unplacedAll faults' := List.map_append

/-- So they do in the reverse order. -/
@[simp] theorem unplacedAll_reverse (faults : List Diagnostic) :
    unplacedAll faults.reverse = (unplacedAll faults).reverse := List.map_reverse

/-- Without its place a diagnostic is still there. -/
theorem unplacedAll_eq_nil {faults : List Diagnostic} : unplacedAll faults = [] ↔ faults = [] := List.map_eq_nil_iff

/-- Two scanned symbols that differ in nothing but places. -/
structure Scanned.Alike (u v : Scanned) : Prop where
  token : u.symbol.token = v.symbol.token
  lexeme : u.symbol.lexeme = v.symbol.lexeme
  faults : unplacedAll u.faults = unplacedAll v.faults

/-- The diagnostics of all symbols lose their places symbol by symbol. -/
theorem unplacedAll_flatMap (us : List Scanned) :
    unplacedAll (us.flatMap (·.faults)) = us.flatMap fun u => unplacedAll u.faults := List.map_flatMap

/-- Symbols that differ in nothing but places have the same faults, but for places. -/
theorem faults_of_alike {us vs : List Scanned} (h : List.Forall₂ Scanned.Alike us vs) :
    (us.flatMap fun u => unplacedAll u.faults) = vs.flatMap fun v => unplacedAll v.faults := by
  induction h with
  | nil => rfl
  | cons halike _ ih => rw [List.flatMap_cons, List.flatMap_cons, halike.faults, ih]

namespace Scan

/-! ## What is skipped and what is found -/

/-- The same comment is skipped, and the same is reported of it. -/
def Skipped.Alike (a b : Skipped) : Prop := a.length = b.length ∧ unplacedAll a.faults = unplacedAll b.faults

/-- How far a comment goes and what is wrong with it does not depend on where it is, but for places. -/
theorem commentFrom_moved (start start' p p' : Position) (depth length : Nat) (tooDeep tooDeep' : Option Position)
    (cs : List Char) (htooDeep : tooDeep.isSome = tooDeep'.isSome) :
    (commentFrom start p depth length tooDeep cs).Alike (commentFrom start' p' depth length tooDeep' cs) := by
  have hreport : ∀ tooDeep tooDeep' : Option Position, tooDeep.isSome = tooDeep'.isSome →
      unplacedAll (tooDeep.toList.map (.atPosition .commentTooDeep)) =
        unplacedAll (tooDeep'.toList.map (.atPosition .commentTooDeep)) := by
    intro tooDeep tooDeep' h
    cases tooDeep <;> cases tooDeep' <;> simp at h ⊢
  fun_induction commentFrom start p depth length tooDeep cs generalizing p' tooDeep' with
  | case1 p depth length tooDeep rest ih =>
    rw [commentFrom]
    apply ih
    split
    · cases tooDeep <;> cases tooDeep' <;> simp at htooDeep ⊢
    · exact htooDeep
  | case2 p length tooDeep rest =>
    rw [commentFrom, if_pos rfl]
    exact ⟨rfl, hreport _ _ htooDeep⟩
  | case3 p depth length tooDeep rest hne ih =>
    rw [commentFrom, if_neg hne]
    exact ih _ _ htooDeep
  | case4 p depth length tooDeep c rest hopen hclose ih =>
    rw [commentFrom.eq_3 _ _ _ _ _ _ _ hopen hclose]
    exact ih _ _ htooDeep
  | case5 p depth length tooDeep =>
    rw [commentFrom]
    exact ⟨rfl, by simp [hreport _ _ htooDeep]⟩

/-- So it is from its opener on. -/
theorem comment_moved (p p' : Position) (cs : List Char) : (comment p cs).Alike (comment p' cs) :=
  commentFrom_moved _ _ _ _ _ _ _ _ _ rfl

/-- How far the lines of a section go does not depend on their number. -/
theorem linesFrom_moved (line line' : Nat) (closes : Bool) (length : Nat) (cs : List Char) :
    (linesFrom line closes length cs).2 = (linesFrom line' closes length cs).2 := by
  fun_induction linesFrom line closes length cs generalizing line' with
  | case1 line closes length => rw [linesFrom]
  | case2 line length rest => cases rest <;> simp [linesFrom]
  | case3 line closes length hcloses => rw [linesFrom, if_neg hcloses]
  | case4 line closes length hcloses c rest ih =>
    rw [linesFrom, if_neg hcloses]
    exact ih _
  | case5 line closes length c rest hc ih =>
    rw [linesFrom.eq_4 _ _ _ _ _ hc]
    exact ih _

/-- So it is with a disabled section. -/
theorem disabledSection_moved (line line' : Nat) (cs : List Char) :
    (disabledSection line cs).Alike (disabledSection line' cs) :=
  ⟨linesFrom_moved _ _ _ _ _, rfl⟩

/-- The same symbol is found, and the same is reported of it. -/
def Delimited.Alike (a b : Delimited) : Prop :=
  a.token = b.token ∧ a.spelling = b.spelling ∧ unplacedAll a.faults = unplacedAll b.faults

/-- What is wrong in a string is the same elsewhere, but for places. -/
theorem StringContent.moved {quote : Char} {escapes : Bool} {after body : List Char} {p : Position}
    {stray : List Diagnostic} (h : StringContent quote escapes after p body stray) (p' : Position) :
    ∃ stray', StringContent quote escapes after p' body stray' ∧ unplacedAll stray = unplacedAll stray' := by
  induction h generalizing p' with
  | nil => exact ⟨[], .nil, rfl⟩
  | plain hquote hline hescape next ih =>
    obtain ⟨stray', hbody, hstray⟩ := ih (p'.after _)
    exact ⟨stray', .plain hquote hline hescape hbody, hstray⟩
  | escape hescapes hknown next ih =>
    obtain ⟨stray', hbody, hstray⟩ := ih ((p'.after _).after _)
    exact ⟨stray', .escape hescapes hknown hbody, hstray⟩
  | stray hescapes hnext hknown hline next ih =>
    obtain ⟨stray', hbody, hstray⟩ := ih (p'.after _)
    exact ⟨_, .stray hescapes hnext hknown hline hbody, by simp [hstray]⟩
  | last hescapes hafter => exact ⟨[], .last hescapes hafter, rfl⟩

/-- So is what is wrong at its end. -/
theorem StringEnd.moved {quote : Char} {start : Position} {closing after : List Char} {ending : List Diagnostic}
    (h : StringEnd quote start closing after ending) (start' : Position) :
    ∃ ending', StringEnd quote start' closing after ending' ∧ unplacedAll ending = unplacedAll ending' := by
  cases h with
  | quote => exact ⟨_, .quote, rfl⟩
  | line => exact ⟨_, .line, rfl⟩
  | text => exact ⟨_, .text, rfl⟩

/-- So it is with a string from its quote on. -/
theorem string_moved (rules : ScanRules) (p p' : Position) {quote : Char} (hquote : quote = '\'' ∨ quote = '"')
    (rest : List Char) : (string rules p quote rest).Alike (string rules p' quote rest) := by
  obtain ⟨body, closing, after, stray, ending, rfl, hstring, hbody, hend⟩ := string_parts rules p quote rest
  obtain ⟨stray', hbody', hstray⟩ := hbody.moved (p'.after quote)
  obtain ⟨ending', hend', hending⟩ := hend.moved p'
  have hfaults : unplacedAll (stray ++ ending) = unplacedAll (stray' ++ ending') := by simp [hstray, hending]
  have hnone : stray ++ ending = [] ↔ stray' ++ ending' = [] := by
    rw [← unplacedAll_eq_nil, hfaults, unplacedAll_eq_nil]
  rw [hstring, string_of_parts hquote hbody' hend']
  exact ⟨by simp only [hnone], rfl, hfaults⟩

/-- How far a pragma goes and what is wrong with it does not depend on where it is, but for places. -/
theorem pragmaFrom_moved (start start' : Position) (before cs : List Char) :
    (pragmaFrom start before cs).Alike (pragmaFrom start' before cs) := by
  fun_induction pragmaFrom start before cs with
  | case1 before rest =>
    rw [pragmaFrom]
    exact ⟨rfl, rfl, rfl⟩
  | case2 before c rest hclose ih =>
    rw [pragmaFrom.eq_2 _ _ _ _ hclose]
    exact ih
  | case3 before =>
    rw [pragmaFrom]
    exact ⟨rfl, rfl, rfl⟩

/-- Nor do the faults of other symbols. -/
theorem faults_moved (p p' : Position) (spelled : Spelled) :
    unplacedAll (faults p spelled) = unplacedAll (faults p' spelled) := by
  unfold faults
  split
  · split <;> rfl
  · rfl
  · rfl
  · simp [unplacedAll, Function.comp_def]
  · rfl

/-- So the symbol is the same wherever the same characters come next. -/
theorem symbolAt_moved (rules : ScanRules) (p p' : Position) (c : Char) (rest : List Char) :
    (symbolAt rules p c rest).Alike (symbolAt rules p' c rest) := by
  unfold symbolAt
  split
  · next hquote => exact string_moved rules p p' hquote rest
  · split
    · exact pragmaFrom_moved _ _ _ _
    · exact ⟨rfl, rfl, faults_moved _ _ _⟩

/-! ## The same text at two places -/

/-- Two sources with the same text to come. If a disabled section could start there, both are at the start of a line or
none is. -/
structure Moved (s t : Source) : Prop where
  rest : s.rest = t.rest
  column : 0 < s.position.column
  column' : 0 < t.position.column
  section_iff : (s.position.column = 1 ↔ t.position.column = 1) ∨ ¬['?', '<'] <+: s.rest

variable {s t : Source}

/-- A text to come may be moved behind the start of a line, if no disabled section starts it there. -/
theorem moved_of_section (hrest : s.rest = t.rest) (hs : 0 < s.position.column) (ht : 1 < t.position.column)
    (hsection : ['?', '<'] <+: s.rest → s.position.column ≠ 1) : Moved s t := by
  refine ⟨hrest, hs, by omega, ?_⟩
  by_cases hopens : ['?', '<'] <+: s.rest
  · have hs' := hsection hopens
    exact .inl (by omega)
  · exact .inr hopens

/-- Two sources that differ in place do so after a character. -/
theorem Moved.read (h : Moved s t) : Moved s.read t.read := by
  have hrest := h.rest
  cases hs : s.rest with
  | nil =>
    rw [hs] at hrest
    have hsame : s.read = s := by simp [Source.read, hs]
    have hsame' : t.read = t := by simp [Source.read, ← hrest]
    rw [hsame, hsame']
    exact h
  | cons c rest =>
    rw [hs] at hrest
    have hread : s.read.rest = rest ∧ s.read.position = s.position.after c := by simp [Source.read, hs]
    have hread' : t.read.rest = rest ∧ t.read.position = t.position.after c := by simp [Source.read, ← hrest]
    refine ⟨by rw [hread.1, hread'.1], ?_, ?_, .inl ?_⟩
    · rw [hread.2, Position.after]
      split <;> simp
    · rw [hread'.2, Position.after]
      split <;> simp
    · have hcolumn := h.column
      have hcolumn' := h.column'
      rw [hread.2, hread'.2, Position.after, Position.after]
      split
      · simp
      · simp only [Nat.add_eq_right]
        omega

/-- So they do after several characters. -/
theorem Moved.advance (h : Moved s t) (n : Nat) : Moved (s.advance n) (t.advance n) := by
  induction n generalizing s t with
  | zero => exact h
  | succ n ih => exact ih h.read

/-- So they do after layout. -/
theorem Moved.skipLayout (h : Moved s t) : Moved (skipLayout s) (skipLayout t) := by
  unfold Scan.skipLayout
  rw [← h.rest]
  exact h.advance _

/-- What is found in a text is found at every place. -/
theorem Finds.moved {rules : ScanRules} {s' : Source} {before before' : List Diagnostic} {found : Scanned}
    (h : Finds rules s before found s') (hst : Moved s t) (hbefore : unplacedAll before = unplacedAll before') :
    ∃ found' t', Finds rules t before' found' t' ∧ found.Alike found' ∧ Moved s' t' := by
  induction h generalizing t before' with
  | @finish s before hrest =>
    have hskip := hst.skipLayout
    refine ⟨_, _, .finish (by rw [← hskip.rest, hrest]), ⟨rfl, rfl, by simp [hbefore]⟩, hskip⟩
  | @comment s s' before rest found hrest less next ih =>
    have hskip := hst.skipLayout
    obtain ⟨hlength, hfaults⟩ := comment_moved (skipLayout s).position (skipLayout t).position rest
    have hnext := hskip.advance (Scan.comment (skipLayout s).position rest).length
    obtain ⟨found', t', hfinds, halike, hmoved⟩ := ih hnext
      (show unplacedAll (_ ++ before) = unplacedAll ((Scan.comment (skipLayout t).position rest).faults.reverse ++ before') by
        simp [hbefore, hfaults])
    rw [hnext.rest, hst.rest, hlength] at less
    rw [hlength] at hfinds
    exact ⟨found', t', .comment (hskip.rest ▸ hrest) less hfinds, halike, hmoved⟩
  | @disabled s s' before rest found hrest hcolumn less next ih =>
    have hskip := hst.skipLayout
    have hcolumn' : (skipLayout t).position.column = 1 := by
      obtain hiff | hnone := hskip.section_iff
      · exact hiff.mp hcolumn
      · rw [hrest] at hnone
        exact (hnone ⟨rest, rfl⟩).elim
    obtain ⟨hlength, hfaults⟩ :=
      disabledSection_moved (skipLayout s).position.line (skipLayout t).position.line ('?' :: '<' :: rest)
    have hnext := hskip.advance (disabledSection (skipLayout s).position.line ('?' :: '<' :: rest)).length
    obtain ⟨found', t', hfinds, halike, hmoved⟩ := ih hnext
      (show unplacedAll (_ ++ before) = unplacedAll
        ((disabledSection (skipLayout t).position.line ('?' :: '<' :: rest)).faults.reverse ++ before') by
        simp [hbefore, hfaults])
    rw [hnext.rest, hst.rest, hlength] at less
    rw [hlength] at hfinds
    exact ⟨found', t', .disabled (hskip.rest ▸ hrest) hcolumn' less hfinds, halike, hmoved⟩
  | @symbol s before c rest hrest hcomment hsection =>
    have hskip := hst.skipLayout
    obtain ⟨htoken, hspelling, hfaults⟩ := symbolAt_moved rules (skipLayout s).position (skipLayout t).position c rest
    have hsection' : ¬(c = '?' ∧ rest.head? = some '<' ∧ (skipLayout t).position.column = 1) := by
      rintro ⟨rfl, hless, hcolumn'⟩
      obtain ⟨tail, rfl⟩ := List.head?_eq_some_iff.mp hless
      obtain hiff | hnone := hskip.section_iff
      · exact hsection ⟨rfl, hless, hiff.mpr hcolumn'⟩
      · rw [hrest] at hnone
        exact hnone ⟨tail, rfl⟩
    refine ⟨_, _, .symbol (hskip.rest ▸ hrest) hcomment hsection', ⟨htoken, by rw [hspelling], ?_⟩, ?_⟩
    · simp [hbefore, hfaults]
    · rw [hspelling]
      exact hskip.advance _

/-- A text is read as the same symbols at every place. -/
theorem Reads.moved {rules : ScanRules} {found : List Scanned} (h : Reads rules s found) (hst : Moved s t) :
    ∃ found', Reads rules t found' ∧ List.Forall₂ Scanned.Alike found found' := by
  induction h generalizing t with
  | @last s s' found hfinds heof =>
    obtain ⟨found', t', hfinds', halike, -⟩ := hfinds.moved hst rfl
    exact ⟨[found'], .last hfinds' (halike.token ▸ heof), .cons halike .nil⟩
  | @more s s' found others hfinds heof less next ih =>
    obtain ⟨found', t', hfinds', halike, hmoved⟩ := hfinds.moved hst rfl
    obtain ⟨others', hreads', hothers⟩ := ih hmoved
    rw [hmoved.rest, hst.rest] at less
    exact ⟨found' :: others', .more hfinds' (halike.token ▸ heof) less hreads', .cons halike hothers⟩

end Scan

end Modula
