import Modula.Proofs.Scan.Lossless
import Modula.Proofs.Source.LineEnds

/-!
# The reading point of a source

A source counts bytes, lines and columns as it is read, and remembers where a lexeme starts by a number of bytes. A caller
sees none of that, but a text in two parts, what has been read and what is left, and the characters read since the start
of the lexeme (`Source.View`). After any calls the numbers are those of the part that has been read, every call is
answered from the two parts, and a lexeme is what has been read since it was marked (`Source.reading_point`).
-/

set_option autoImplicit false

namespace Modula

namespace Source

/-! ## Calls -/

/-- What a caller may ask of a source. -/
inductive Call where
  /-- Asks for the next character. -/
  | next
  /-- Asks for the character after the next one. -/
  | second
  /-- Reads the next character. -/
  | read
  /-- Reads the next character and asks for the one that is then the next. -/
  | consume
  /-- Marks the next character as the start of a lexeme. -/
  | mark
  /-- Takes the lexeme. -/
  | take
deriving DecidableEq

/-- How a call is answered. -/
inductive Answer where
  | character (c : Char)
  | lexeme (text : String)
  | refused (e : SourceError)
  | done
deriving DecidableEq

namespace Call

/-- The answer to a call, and the source after it. A refused call leaves the source as it was. -/
def perform : Call → Source → Answer × Source
  | .next, s => (.character s.next, s)
  | .second, s => (.character s.second, s)
  | .read, s => (.character s.next, s.read)
  | .consume, s => (.character s.read.next, s.read)
  | .mark, s => (.done, s.markLexeme)
  | .take, s =>
    match s.takeLexeme with
    | .ok (lexeme, s') => (.lexeme lexeme, s')
    | .error e => (.refused e, s)

end Call

/-- The source after some calls. -/
def after (s : Source) (calls : List Call) : Source := calls.foldl (fun s c => (c.perform s).2) s

/-! ## What a caller sees -/

/-- A text as it is seen from a reading point. -/
structure View where
  /-- The characters that have been read. -/
  passed : List Char
  /-- The characters that are left. -/
  rest : List Char
  /-- The characters read since the latest mark, unless the lexeme marked there has been taken. -/
  marked : Option (List Char)

namespace View

/-- The view of a text from its start. -/
def start (text : List Char) : View := ⟨[], text, none⟩

/-- The view after one character has been read, if there is one. -/
def read : View → View
  | ⟨passed, [], marked⟩ => ⟨passed, [], marked⟩
  | ⟨passed, c :: rest, marked⟩ => ⟨passed ++ [c], rest, marked.map (· ++ [c])⟩

/-- The answer to a call, and the view after it. -/
def answer : Call → View → Answer × View
  | .next, v => (.character (v.rest.headD endMark), v)
  | .second, v => (.character (v.rest.tail.headD endMark), v)
  | .read, v => (.character (v.rest.headD endMark), v.read)
  | .consume, v => (.character (v.rest.tail.headD endMark), v.read)
  | .mark, v => (.done, { v with marked := some [] })
  | .take, v =>
    match v.marked with
    | some (c :: run) => (.lexeme (String.ofList (c :: run)), { v with marked := none })
    | some [] | none => (.refused .noMark, v)

/-- The view after some calls. -/
def after (v : View) (calls : List Call) : View := calls.foldl (fun v c => (answer c v).2) v

end View

/-- A source is seen in this way: its numbers are those of the text that has been read, and the mark is the number of
bytes in front of the lexeme. -/
structure SeenAs (s : Source) (v : View) : Prop where
  passed : s.passed = v.passed.reverse
  rest : s.rest = v.rest
  offset : s.offset = byteSize v.passed
  position : s.position = placeAfter v.passed
  unmarked : v.marked = none → s.mark = none
  marked : ∀ run ∈ v.marked, ∃ before, v.passed = before ++ run ∧ s.mark = some (byteSize before)

/-! ## What one call does -/

/-- Walking back from the end of a run gathers the run. -/
theorem gather_append (before run text : List Char) :
    gather (byteSize before) (byteSize (before ++ run)) (before ++ run).reverse text = run ++ text := by
  induction run using List.reverseRecOn generalizing text with
  | nil =>
    rw [List.append_nil]
    cases before.reverse with
    | nil => rfl
    | cons c rest => rw [gather, if_neg (Nat.lt_irrefl _), List.nil_append]
  | append_singleton run c ih =>
    have hreverse : (before ++ (run ++ [c])).reverse = c :: (before ++ run).reverse := by simp
    have hc := c.utf8Size_pos
    rw [hreverse, gather, if_pos (by simp; omega)]
    have hsize : byteSize (before ++ (run ++ [c])) - c.utf8Size = byteSize (before ++ run) := by
      simp only [byteSize_append, byteSize_singleton]
      omega
    rw [hsize, ih (c :: text), List.append_assoc, List.singleton_append]

namespace SeenAs

variable {s : Source} {v : View}

/-- At its start a source is at the start of its text. -/
theorem ofNormalized (filename : String) (text : List Char) :
    (Source.ofNormalized filename text).SeenAs (.start text) where
  passed := rfl
  rest := rfl
  offset := rfl
  position := rfl
  unmarked _ := rfl
  marked run hrun := by cases hrun

/-- The next character is the first one left. -/
theorem next (h : s.SeenAs v) : s.next = v.rest.headD endMark := by rw [Source.next, h.rest]

/-- The second character is the one after it. -/
theorem second (h : s.SeenAs v) : s.second = v.rest.tail.headD endMark := by rw [Source.second, h.rest]

/-- Reading a character moves on as the split of the text does. -/
theorem read (h : s.SeenAs v) : s.read.SeenAs v.read := by
  obtain ⟨passed, rest, marked⟩ := v
  cases rest with
  | nil =>
    have hsame : s.read = s := by simp [Source.read, h.rest]
    rw [hsame]
    exact h
  | cons c rest =>
    have hread : s.read = { s with
        passed := c :: s.passed
        rest := rest
        offset := s.offset + c.utf8Size
        position := s.position.after c } := by simp [Source.read, h.rest]
    rw [hread]
    refine ⟨by simp [h.passed, View.read], rfl, by simp [h.offset, View.read], ?_, fun hnone => ?_, fun run hrun => ?_⟩
    · exact (congrArg (·.after c) h.position).trans (afterAll_placeAfter passed [c])
    · exact h.unmarked (by simpa [View.read] using hnone)
    · obtain ⟨run', hrun', rfl⟩ : ∃ run', marked = some run' ∧ run' ++ [c] = run := by simpa [View.read] using hrun
      obtain ⟨before, hbefore, hmark⟩ := h.marked run' hrun'
      have hpassed : passed = before ++ run' := hbefore
      exact ⟨before, by simp [View.read, hpassed], hmark⟩

/-- Marking starts a lexeme at the reading point. -/
theorem markLexeme (h : s.SeenAs v) : s.markLexeme.SeenAs { v with marked := some [] } := by
  refine ⟨h.passed, h.rest, h.offset, h.position, nofun, ?_⟩
  rintro run ⟨rfl⟩
  exact ⟨v.passed, (List.append_nil _).symm, congrArg some h.offset⟩

/-- A lexeme is what has been read since its mark; where that is nothing, there is none. -/
theorem takeLexeme (h : s.SeenAs v) :
    s.takeLexeme = match v.marked with
      | some (c :: run) => .ok (String.ofList (c :: run), { s with mark := none })
      | some [] | none => .error .noMark := by
  split
  · next c run hmarked =>
    obtain ⟨before, hbefore, hmark⟩ := h.marked _ hmarked
    have hc := c.utf8Size_pos
    have hread : byteSize before < s.offset := by
      rw [h.offset, hbefore, byteSize_append, byteSize_cons]
      omega
    have htext : s.textSince (byteSize before) = String.ofList (c :: run) := by
      rw [textSince, h.offset, h.passed, hbefore, gather_append, List.append_nil]
    simp [Source.takeLexeme, hmark, hread, htext]
  · next hmarked =>
    obtain ⟨before, hbefore, hmark⟩ := h.marked _ hmarked
    have hread : ¬byteSize before < s.offset := by
      rw [h.offset, hbefore, List.append_nil]
      exact Nat.lt_irrefl _
    simp [Source.takeLexeme, hmark, hread]
  · next hmarked => simp [Source.takeLexeme, h.unmarked hmarked]

/-- A call is answered from what the caller sees. -/
theorem perform (h : s.SeenAs v) (c : Call) :
    (c.perform s).1 = (View.answer c v).1 ∧ (c.perform s).2.SeenAs (View.answer c v).2 := by
  cases c with
  | next => exact ⟨congrArg Answer.character h.next, h⟩
  | second => exact ⟨congrArg Answer.character h.second, h⟩
  | read => exact ⟨congrArg Answer.character h.next, h.read⟩
  | consume =>
    refine ⟨congrArg Answer.character (h.read.next.trans ?_), h.read⟩
    obtain ⟨passed, rest, marked⟩ := v
    cases rest <;> rfl
  | mark => exact ⟨rfl, h.markLexeme⟩
  | take =>
    have htake := h.takeLexeme
    simp only [Call.perform, View.answer]
    split at htake
    · rw [htake]
      exact ⟨rfl, h.passed, h.rest, h.offset, h.position, fun _ => rfl, nofun⟩
    · rw [htake]
      exact ⟨rfl, h⟩
    · rw [htake]
      exact ⟨rfl, h⟩

/-! ## What a run of calls does -/

/-- So all calls are seen as on the split of the text. -/
theorem after (h : s.SeenAs v) (calls : List Call) : (s.after calls).SeenAs (v.after calls) := by
  induction calls generalizing s v with
  | nil => exact h
  | cons c calls ih => exact ih (h.perform c).2

/-- The mark of a source is the start of a character that has been read, or the reading point. -/
theorem mark_isValid (h : s.SeenAs v) : ∀ start ∈ s.mark, start ≤ s.offset ∧
    (String.Pos.Raw.mk start).IsValid (String.ofList (v.passed ++ v.rest)) := by
  intro start hstart
  cases hmarked : v.marked with
  | none =>
    rw [h.unmarked hmarked] at hstart
    cases hstart
  | some run =>
    obtain ⟨before, hbefore, hmark⟩ := h.marked run hmarked
    obtain rfl : byteSize before = start := Option.some.inj (hmark.symm.trans hstart)
    rw [h.offset, hbefore, byteSize_append, List.append_assoc]
    exact ⟨Nat.le_add_right _ _, isValid_byteSize _ _⟩

end SeenAs

/-- The two parts of a text stay the parts of the same text. -/
theorem View.passed_append_rest (v : View) (calls : List Call) :
    (v.after calls).passed ++ (v.after calls).rest = v.passed ++ v.rest := by
  have hread : ∀ v : View, v.read.passed ++ v.read.rest = v.passed ++ v.rest := by
    rintro ⟨passed, rest, marked⟩
    cases rest <;> simp [read]
  induction calls generalizing v with
  | nil => rfl
  | cons c calls ih =>
    refine (ih (answer c v).2).trans ?_
    cases c with
    | next | second | mark => rfl
    | read | consume => exact hread v
    | take =>
      simp only [answer]
      split <;> rfl

/-! ## Sources of accepted texts -/

/-- An accepted text has a limited size, also when its line ends are normalized. -/
theorem byteSize_le_of_ofText {filename text : String} {s : Source} (h : ofText filename text = .ok s) :
    byteSize (LineEnds.normalize text.toList) ≤ SourceError.maxSize := by
  have hsize : text.utf8ByteSize ≤ SourceError.maxSize := by
    unfold ofText at h
    split at h
    · cases h
    · next hsmall => exact Nat.le_of_not_lt hsmall
  have htext : byteSize text.toList = text.utf8ByteSize := by rw [byteSize, String.ofList_toList]
  exact (LineEnds.byteSize_normalize_le text.toList).trans (htext ▸ hsize)

/-- The place after a part of a text has no more lines or columns than the text has bytes, and one. -/
theorem placeAfter_le {text : List Char} {size : ℕ} (h : byteSize text ≤ size) :
    (placeAfter text).line ≤ size + 1 ∧ (placeAfter text).column ≤ size + 1 := by
  have hlength := (length_le_byteSize text).trans h
  have hlines : text.count '\n' ≤ text.length := List.count_le_length
  have hcolumns := (List.takeWhile_prefix (· ≠ '\n') (l := text.reverse)).length_le
  rw [List.length_reverse] at hcolumns
  exact ⟨Nat.succ_le_succ (hlines.trans hlength), Nat.succ_le_succ (hcolumns.trans hlength)⟩

/-- After any calls on an accepted text, the text is what has been read and what is left. The offset is the number of
bytes of the former, so it is the start of a character or the end of the text, and so is the mark, which is not behind
it. The position is the place after the former, within the limits of a text. The characters in view are the first two of
what is left, and at the end reading changes nothing. A lexeme is what has been read since the latest mark, and taking
it clears the mark; where no mark is set, or nothing has been read since, taking is refused and nothing changes. -/
theorem reading_point {filename text : String} {s : Source} (h : ofText filename text = .ok s) (calls : List Call) :
    let whole := LineEnds.normalize text.toList
    let v := (View.start whole).after calls
    let t := s.after calls
    whole = v.passed ++ v.rest ∧
      (t.offset = (String.ofList v.passed).utf8ByteSize ∧ (String.Pos.Raw.mk t.offset).IsValid (String.ofList whole) ∧
        ∀ start ∈ t.mark, start ≤ t.offset ∧ (String.Pos.Raw.mk start).IsValid (String.ofList whole)) ∧
      (t.position = placeAfter v.passed ∧ t.position.line ≤ 260001 ∧ t.position.column ≤ 260001) ∧
      (t.next = v.rest.headD endMark ∧ t.second = v.rest.tail.headD endMark ∧ (t.atEnd = true ↔ v.rest = [])) ∧
      (v.rest = [] → t.read = t) ∧
      (Call.take.perform t = match v.marked with
        | some (c :: run) => (.lexeme (String.ofList (c :: run)), { t with mark := none })
        | some [] | none => (.refused .noMark, t)) ∧
      ∀ c : Call, (c.perform t).1 = (View.answer c v).1 := by
  intro whole v t
  have hsize : byteSize whole ≤ SourceError.maxSize := byteSize_le_of_ofText h
  obtain rfl := eq_ofNormalized h
  have hseen : t.SeenAs v := (SeenAs.ofNormalized filename whole).after calls
  have hwhole : v.passed ++ v.rest = whole := View.passed_append_rest (.start whole) calls
  have hpassed : byteSize v.passed ≤ SourceError.maxSize := by
    rw [← hwhole, byteSize_append] at hsize
    omega
  obtain ⟨hline, hcolumn⟩ := placeAfter_le hpassed
  refine ⟨hwhole.symm, ⟨hseen.offset, ?_, ?_⟩, ⟨hseen.position, ?_, ?_⟩, ⟨hseen.next, hseen.second, ?_⟩, fun hend => ?_,
    ?_, fun c => (hseen.perform c).1⟩
  · rw [hseen.offset, ← hwhole]
    exact isValid_byteSize _ _
  · rw [← hwhole]
    exact hseen.mark_isValid
  · rw [hseen.position]
    exact hline
  · rw [hseen.position]
    exact hcolumn
  · rw [atEnd, hseen.rest, List.isEmpty_iff]
  · have hrest : t.rest = [] := hseen.rest.trans hend
    simp [read, hrest]
  · have htake := hseen.takeLexeme
    simp only [Call.perform]
    split at htake <;> rw [htake]

/-- A text of two lines and a character that also marks the end, with a lexeme that runs over a line end. -/
theorem reading_point_line :
    ∃ s, ofText "m" "é\r\n\x04" = .ok s ∧
      Call.take.perform (s.after [.mark, .consume, .take, .mark, .take, .read, .second]) =
        (.lexeme "\n", { s.after [.mark, .consume, .take, .mark, .take, .read, .second] with mark := none }) := by
  have h : ofText "m" "é\r\n\x04" = .ok (.ofNormalized "m" "é\n\x04".toList) := by rfl
  obtain ⟨-, -, -, -, -, htake, -⟩ :=
    reading_point h [.mark, .consume, .take, .mark, .take, .read, .second]
  exact ⟨_, h, htake⟩

end Source

end Modula
