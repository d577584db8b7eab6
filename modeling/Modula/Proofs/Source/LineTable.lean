import Mathlib.Data.String.Basic
import Modula.Proofs.Source.ReadingPoint

/-!
# The lines of a text and the reading point

The starts of the lines of a text are found once, before it is read; the line and the column of the reading point are
counted while it is read. What the table of starts cuts out of the text are the lines that the text is split into
(`Lines.line?_ofText`). Both are told by the line ends: the lines joined by line ends are the text again, but for a line
end at its very end, and a part of the text that ends with a line end has as many lines as line ends. So the next
character is found in the lines at the place that the reading point names (`Source.lines_agree`).
-/

set_option autoImplicit false

namespace Modula

namespace Lines

/-! ## Lines of texts -/

/-- Splits a text at its line ends. -/
def split (text : List Char) : List (List Char) :=
  text.foldr
    (fun c lines =>
      if c = '\n' then [] :: lines
      else
        match lines with
        | [] => [[c]]
        | line :: rest => (c :: line) :: rest)
    []

/-- An empty text has no lines. -/
@[simp] theorem split_nil : split [] = [] := rfl

/-- A line end closes an empty line. -/
@[simp] theorem split_cons_line (cs : List Char) : split ('\n' :: cs) = [] :: split cs := rfl

/-- Any other character belongs to the first line. -/
theorem split_cons_other {c : Char} (hc : c ≠ '\n') (cs : List Char) :
    split (c :: cs) = (c :: (split cs).headD []) :: (split cs).tail := by
  rw [split, List.foldr_cons, if_neg hc, ← split]
  cases split cs <;> rfl

/-- Only the empty text has no lines. -/
theorem split_eq_nil_iff {cs : List Char} : split cs = [] ↔ cs = [] := by
  cases cs with
  | nil => simp
  | cons c cs =>
    by_cases hc : c = '\n'
    · simp [hc]
    · simp [split_cons_other hc]

/-- The first line of a text ends before the first line end. -/
theorem head?_split {cs : List Char} (h : cs ≠ []) : (split cs).head? = some (cs.takeWhile (· ≠ '\n')) := by
  induction cs with
  | nil => exact (h rfl).elim
  | cons c cs ih =>
    by_cases hc : c = '\n'
    · simp [hc]
    · rw [split_cons_other hc]
      by_cases hcs : cs = []
      · simp [hcs, hc]
      · simp [List.headD_eq_head?_getD, ih hcs, hc]

/-- A part of a text that ends with a line end has as many lines as line ends, and the other lines of the text are those
of the part after it. -/
theorem split_append {front : List Char} (h : front = [] ∨ front.getLast? = some '\n') (rest : List Char) :
    (split front).length = front.count '\n' ∧ split (front ++ rest) = split front ++ split rest := by
  induction front with
  | nil => exact ⟨rfl, rfl⟩
  | cons c front ih =>
    have hlast : (c :: front).getLast? = some '\n' := h.resolve_left (by simp)
    by_cases hfront : front = []
    · obtain rfl : c = '\n' := by simpa [hfront] using hlast
      simp [hfront]
    · have hlast' : front.getLast? = some '\n' := by
        rwa [List.getLast?_cons_of_ne_nil hfront] at hlast
      obtain ⟨hlength, happend⟩ := ih (.inr hlast')
      by_cases hc : c = '\n'
      · simp [hc, hlength, happend]
      · have hsplit : split front ≠ [] := fun hnil => hfront (split_eq_nil_iff.mp hnil)
        obtain ⟨line, lines, hlines⟩ := List.exists_cons_of_ne_nil hsplit
        rw [List.cons_append, split_cons_other hc, split_cons_other hc, happend, hlines]
        rw [hlines] at hlength
        simpa [List.count_cons_of_ne hc] using hlength

end Lines

/-- A text without a line end at its end. -/
def withoutLastLineEnd (text : List Char) : List Char := if text.getLast? = some '\n' then text.dropLast else text

/-- Only the last character may be left out. -/
theorem withoutLastLineEnd_cons (c : Char) {text : List Char} (h : text ≠ []) :
    withoutLastLineEnd (c :: text) = c :: withoutLastLineEnd text := by
  rw [withoutLastLineEnd, withoutLastLineEnd, List.getLast?_cons_of_ne_nil h, List.dropLast_cons_of_ne_nil h]
  split <;> rfl

namespace Lines

/-- The lines of a text joined by line ends are the text, without a line end at its end. -/
theorem intercalate_split (text : List Char) : ['\n'].intercalate (split text) = withoutLastLineEnd text := by
  induction text with
  | nil => rfl
  | cons c text ih =>
    by_cases htext : text = []
    · subst htext
      by_cases hc : c = '\n'
      · subst hc
        rfl
      · simp [split_cons_other hc, withoutLastLineEnd, hc]
    · have hsplit : split text ≠ [] := fun hnil => htext (split_eq_nil_iff.mp hnil)
      obtain ⟨line, lines, hlines⟩ := List.exists_cons_of_ne_nil hsplit
      rw [withoutLastLineEnd_cons c htext, ← ih, hlines]
      by_cases hc : c = '\n'
      · subst hc
        rw [split_cons_line, hlines]
        rfl
      · rw [split_cons_other hc, hlines]
        cases lines <;> rfl

/-- The lines of a text; a text without characters has one line. -/
def texts (text : List Char) : List (List Char) := if text = [] then [[]] else split text

/-- The texts of all lines with line ends between them are the text, but for the last line end. -/
theorem intercalate_texts (text : List Char) : ['\n'].intercalate (texts text) = withoutLastLineEnd text := by
  unfold texts
  split
  · next hnil =>
    rw [hnil]
    rfl
  · exact intercalate_split text

/-- A text without line ends is one line. -/
theorem texts_of_no_line {line : List Char} (h : '\n' ∉ line) : texts line = [line] := by
  induction line with
  | nil => rfl
  | cons c line ih =>
    obtain ⟨hc, hline⟩ := not_or.mp (mt List.mem_cons.mpr h)
    rw [texts, if_neg (List.cons_ne_nil c line), split_cons_other (Ne.symm hc)]
    by_cases hnil : line = []
    · simp [hnil]
    · have hrest := ih hline
      rw [texts, if_neg hnil] at hrest
      rw [hrest]
      rfl

/-- What comes before the first line end of a text is its first line. -/
theorem texts_line {line : List Char} (h : '\n' ∉ line) (rest : List Char) :
    texts (line ++ '\n' :: rest) = line :: split rest := by
  rw [texts, if_neg (by simp)]
  induction line with
  | nil => rfl
  | cons c line ih =>
    obtain ⟨hc, hline⟩ := not_or.mp (mt List.mem_cons.mpr h)
    rw [List.cons_append, split_cons_other (Ne.symm hc), ih hline]
    rfl

/-! ## The table of starts -/

/-- The starts of the lines in the rest of a text of some size, from an offset on. -/
def startsAfter (size : ℕ) : (offset : ℕ) → (rest : List Char) → List ℕ
  | _, [] => []
  | offset, c :: rest =>
    let next := offset + c.utf8Size
    if c = '\n' ∧ next < size then next :: startsAfter size next rest else startsAfter size next rest

/-- The table has the starts that it had before the rest of a text, and those in the rest. -/
theorem toList_startsFrom (size offset : ℕ) (starts : Array ℕ) (rest : List Char) :
    (startsFrom size offset starts rest).toList = starts.toList ++ startsAfter size offset rest := by
  fun_induction startsFrom size offset starts rest with
  | case1 => simp [startsAfter]
  | case2 offset starts c rest next ih =>
    rw [ih, startsAfter]
    change _ = _ ++ if c = '\n' ∧ next < size then next :: startsAfter size next rest else startsAfter size next rest
    split <;> simp

/-- What is cut out between a start and each of the later ones, and up to a stop in the end. -/
def cut (piece : ℕ → ℕ → String) (stop : ℕ) : (start : ℕ) → (later : List ℕ) → List String
  | start, [] => [piece start stop]
  | start, next :: later => piece start next :: cut piece stop next later

/-- Each piece goes up to the next start, and the last one up to the stop. -/
theorem getElem?_cut (piece : ℕ → ℕ → String) (stop start : ℕ) (later : List ℕ) (k : ℕ) :
    (cut piece stop start later)[k]? =
      (start :: later)[k]?.map fun first => piece first ((start :: later)[k + 1]?.getD stop) := by
  induction later generalizing start k with
  | nil => cases k <;> simp [cut]
  | cons next later ih =>
    cases k with
    | zero => simp [cut]
    | succ k => simpa [cut] using ih next k

/-- There is a piece for each start. -/
theorem length_cut (piece : ℕ → ℕ → String) (stop start : ℕ) (later : List ℕ) :
    (cut piece stop start later).length = later.length + 1 := by
  induction later generalizing start with
  | nil => rfl
  | cons next later ih => rw [cut, List.length_cons, ih, List.length_cons]

/-- The text of a part between the offsets of its ends. -/
theorem slice_eq (before part after : List Char) (starts : Array ℕ) :
    slice ⟨String.ofList (before ++ part ++ after), starts⟩ (byteSize before) (byteSize (before ++ part)) =
      String.ofList (withoutLastLineEnd part) := by
  have hextract : String.Pos.Raw.extract (String.ofList (before ++ part ++ after)) ⟨byteSize before⟩
      ⟨byteSize (before ++ part)⟩ = String.ofList part := by
    rw [byteSize_append, byteSize, byteSize, String.utf8ByteSize_ofList, String.utf8ByteSize_ofList]
    exact String.extract_of_valid before part after
  apply String.toList_injective
  rw [slice, hextract]
  by_cases h : part.getLast? = some '\n'
  · simp [String.endsWith_char_eq_getLast?, withoutLastLineEnd, h, ← String.dropEnd_toSlice,
      String.Slice.toList_copy_dropEnd, List.dropLast_eq_take]
  · simp [String.endsWith_char_eq_getLast?, withoutLastLineEnd, h]

/-- What the starts in the rest of a text cut out of it, with a part of a line before the rest, are the lines of that part
and the rest. -/
theorem cut_startsAfter (starts : Array ℕ) {whole : List Char} (before line rest : List Char)
    (hwhole : whole = before ++ line ++ rest) (hline : '\n' ∉ line) :
    cut (slice ⟨String.ofList whole, starts⟩) (byteSize whole) (byteSize before)
        (startsAfter (byteSize whole) (byteSize (before ++ line)) rest) = (texts (line ++ rest)).map String.ofList := by
  induction rest generalizing before line with
  | nil =>
    have hlast : withoutLastLineEnd line = line := if_neg fun h => hline (List.mem_of_getLast? h)
    have hpiece := slice_eq before line [] starts
    rw [hlast, ← hwhole] at hpiece
    rw [List.append_nil] at hwhole
    rw [List.append_nil, texts_of_no_line hline, startsAfter, cut, List.map_singleton]
    simpa [hwhole] using hpiece
  | cons c rest ih =>
    have hnext : byteSize (before ++ line) + c.utf8Size = byteSize (before ++ (line ++ [c])) := by simp [Nat.add_assoc]
    have hwhole' : whole = before ++ (line ++ [c]) ++ rest := by simp [hwhole]
    simp only [startsAfter, hnext]
    by_cases hc : c = '\n'
    · subst hc
      -- the line ends here
      have hlast : withoutLastLineEnd (line ++ ['\n']) = line := by simp [withoutLastLineEnd]
      have hpiece := slice_eq before (line ++ ['\n']) rest starts
      rw [hlast, ← hwhole'] at hpiece
      by_cases hrest : rest = []
      · subst hrest
        rw [List.append_nil] at hwhole'
        rw [if_neg (by simp [hwhole']), startsAfter, cut, texts_line hline, split_nil, List.map_singleton]
        simpa [hwhole'] using hpiece
      · have hless : byteSize (before ++ (line ++ ['\n'])) < byteSize whole := by
          have hpos := (List.length_pos_iff.mpr hrest).trans_le (length_le_byteSize rest)
          rw [hwhole', byteSize_append _ rest]
          omega
        have hothers := ih (before ++ (line ++ ['\n'])) [] (by simp [hwhole]) List.not_mem_nil
        rw [List.append_nil, List.nil_append, texts, if_neg hrest] at hothers
        rw [if_pos ⟨rfl, hless⟩, cut, texts_line hline, hpiece, hothers, List.map_cons]
    · have hline' : '\n' ∉ line ++ [c] := by simp [hline, Ne.symm hc]
      rw [if_neg (fun h => hc h.1), ih before (line ++ [c]) hwhole' hline']
      simp

/-- The table of a text cuts it into its lines. -/
theorem cut_ofText (text : List Char) :
    ∃ later, (ofText text).starts.toList = 0 :: later ∧
      cut (ofText text).slice (ofText text).text.utf8ByteSize 0 later = (texts text).map String.ofList :=
  ⟨startsAfter (byteSize text) 0 text, by rw [ofText, toList_startsFrom]; rfl, cut_startsAfter _ [] [] text rfl (by simp)⟩

/-- The lines with the numbers from one on are the lines of the text. -/
theorem line?_ofText (text : List Char) (n : ℕ) : (ofText text).line? (n + 1) = (texts text)[n]?.map String.ofList := by
  obtain ⟨later, hstarts, hcut⟩ := cut_ofText text
  rw [← List.getElem?_map, ← hcut, getElem?_cut, ← hstarts]
  simp only [line?, Array.getElem?_toList]

/-- There are as many starts as lines. -/
theorem count_ofText (text : List Char) : (ofText text).count = (texts text).length := by
  obtain ⟨later, hstarts, hcut⟩ := cut_ofText text
  rw [← List.length_map (f := String.ofList), ← hcut, length_cut, count, ← Array.length_toList, hstarts, List.length_cons]

/-- One character in place of another one leaves as many lines as there are, if neither of them ends a line. -/
theorem count_replace (text more : List Char) {c d : Char} (hc : c ≠ '\n') (hd : d ≠ '\n') :
    (ofText (text ++ c :: more)).count = (ofText (text ++ d :: more)).count := by
  have hsplit : (split (text ++ c :: more)).length = (split (text ++ d :: more)).length := by
    induction text with
    | nil =>
      rw [List.nil_append, List.nil_append, split_cons_other hc, split_cons_other hd]
      rfl
    | cons e text ih =>
      rw [List.cons_append, List.cons_append]
      by_cases he : e = '\n'
      · rw [he, split_cons_line, split_cons_line, List.length_cons, List.length_cons, ih]
      · rw [split_cons_other he, split_cons_other he, List.length_cons, List.length_cons, List.length_tail,
          List.length_tail, ih]
  rw [count_ofText, count_ofText, texts, texts, if_neg (by simp), if_neg (by simp), hsplit]

/-- The lines of a text from the start of a line on are those of the part from there. -/
theorem line?_append {front rest : List Char} (hfront : front = [] ∨ front.getLast? = some '\n') (hrest : rest ≠ [])
    (k : ℕ) : (ofText (front ++ rest)).line? (front.count '\n' + 1 + k) = (split rest)[k]?.map String.ofList := by
  obtain ⟨hlength, happend⟩ := split_append hfront rest
  have htexts : texts (front ++ rest) = split front ++ split rest := by rw [texts, if_neg (by simp [hrest]), happend]
  rw [Nat.add_right_comm, line?_ofText, htexts, ← hlength, List.getElem?_append_right (Nat.le_add_right _ _),
    Nat.add_sub_cancel_left]

/-- There are lines of just the numbers from one up to the number of lines. -/
theorem isSome_line? (lines : Lines) (n : ℕ) : (lines.line? n).isSome = true ↔ 0 < n ∧ n ≤ lines.count := by
  cases n with
  | zero => simp [line?]
  | succ n =>
    rw [line?, count, Option.isSome_map, isSome_getElem?]
    omega

/-- The lines of a text, taken by their numbers. -/
theorem map_line? (text : List Char) :
    ((List.range' 1 (ofText text).count).map fun n => ((ofText text).line? n).getD "") =
      (texts text).map String.ofList := by
  apply List.ext_getElem
  · simp [count_ofText]
  · intro n hn hn'
    have hlength : n < (texts text).length := by simpa using hn'
    simp [List.getElem_range', Nat.add_comm 1 n, line?_ofText, hlength]

end Lines

/-! ## Places in texts -/

/-- A part of a text up to a place is what comes before the line of that place, and then the start of that line. -/
theorem exists_line_start (passed : List Char) :
    ∃ front start, passed = front ++ start ∧ (front = [] ∨ front.getLast? = some '\n') ∧ '\n' ∉ start ∧
      placeAfter passed = ⟨front.count '\n' + 1, start.length + 1⟩ := by
  refine ⟨(passed.reverse.dropWhile (· ≠ '\n')).reverse, (passed.reverse.takeWhile (· ≠ '\n')).reverse, ?_, ?_, ?_, ?_⟩
  · rw [← List.reverse_append, List.takeWhile_append_dropWhile, List.reverse_reverse]
  · cases hdrop : passed.reverse.dropWhile (· ≠ '\n') with
    | nil => exact .inl rfl
    | cons c rest =>
      have hhead := List.head?_dropWhile_not (· ≠ '\n') passed.reverse
      rw [hdrop] at hhead
      exact .inr (by simpa using hhead)
  · intro hmem
    have hne := List.mem_takeWhile_imp (List.mem_reverse.mp hmem)
    simp at hne
  · have hnone : (passed.reverse.takeWhile (· ≠ '\n')).count '\n' = 0 := by
      refine List.count_eq_zero.mpr fun hmem => ?_
      have hne := List.mem_takeWhile_imp hmem
      simp at hne
    have hcount : passed.count '\n' = (passed.reverse.dropWhile (· ≠ '\n')).reverse.count '\n' := by
      have hsplit := congrArg (List.count '\n')
        (List.takeWhile_append_dropWhile (p := (· ≠ '\n')) (l := passed.reverse))
      rw [List.count_append, hnone, Nat.zero_add, List.count_reverse] at hsplit
      rw [List.count_reverse, hsplit]
    rw [placeAfter, hcount, List.length_reverse]

/-- The line of a place that is not the end of a text goes on there with what comes up to the next line end. -/
theorem line?_placeAfter (passed rest : List Char) (h : rest ≠ []) :
    ∃ start, (Lines.ofText (passed ++ rest)).line? (placeAfter passed).line =
        some (String.ofList (start ++ rest.takeWhile (· ≠ '\n'))) ∧
      (placeAfter passed).column = start.length + 1 := by
  obtain ⟨front, start, rfl, hfront, hstart, hplace⟩ := exists_line_start passed
  have hne : start ++ rest ≠ [] := by simp [h]
  have hfirst : (start ++ rest).takeWhile (· ≠ '\n') = start ++ rest.takeWhile (· ≠ '\n') := by
    refine List.takeWhile_append_of_pos fun c hc => ?_
    simp only [decide_eq_true_eq]
    rintro rfl
    exact hstart hc
  have hline := Lines.line?_append hfront hne 0
  rw [← List.head?_eq_getElem?, Lines.head?_split hne, hfirst] at hline
  refine ⟨start, ?_, by rw [hplace]⟩
  rw [hplace, List.append_assoc]
  exact hline

namespace Source

/-- No call changes the lines. -/
theorem lines_after (s : Source) (calls : List Call) : (s.after calls).lines = s.lines := by
  have hread : ∀ s : Source, s.read.lines = s.lines := by
    intro s
    cases h : s.rest <;> simp [read, h]
  have htake : ∀ s : Source, (Call.take.perform s).2.lines = s.lines := by
    intro s
    cases hmark : s.mark with
    | none => simp [Call.perform, takeLexeme, hmark]
    | some start => by_cases hread : start < s.offset <;> simp [Call.perform, takeLexeme, hmark, hread]
  induction calls generalizing s with
  | nil => rfl
  | cons c calls ih =>
    refine (ih (c.perform s).2).trans ?_
    cases c with
    | next | second | mark => rfl
    | read | consume => exact hread s
    | take => exact htake s

/-- An accepted text has the lines with the numbers from one up to their number, and no others; joined by line ends they
are the text with its line ends normalized, without a line end at its end. After any calls that leave something to be
read, there is a line with the number of the reading point, and the next character either is the one of that line at the
column of the reading point, or is the line end after the last one of that line. -/
theorem lines_agree {filename text : String} {s : Source} (h : ofText filename text = .ok s) :
    (∀ n, (s.line? n).isSome = true ↔ 0 < n ∧ n ≤ s.lines.count) ∧
      "\n".intercalate ((List.range' 1 s.lines.count).map fun n => (s.line? n).getD "") =
        String.ofList (withoutLastLineEnd (LineEnds.normalize text.toList)) ∧
      ∀ calls : List Call, (s.after calls).atEnd = false →
        ∃ line, (s.after calls).line? (s.after calls).position.line = some line ∧
          (line.toList[(s.after calls).position.column - 1]? = some (s.after calls).next ∨
            (s.after calls).position.column - 1 = line.length ∧ (s.after calls).next = '\n') := by
  refine ⟨s.lines.isSome_line?, ?_, fun calls hleft => ?_⟩
  · obtain rfl := eq_ofNormalized h
    apply String.toList_injective
    simp only [line?, ofNormalized]
    rw [Lines.map_line?, String.toList_intercalate, String.toList_ofList, ← Lines.intercalate_texts, List.map_map]
    simp [Function.comp_def]
  · obtain ⟨hwhole, -, ⟨hposition, -⟩, ⟨hnext, -, hend⟩, -⟩ := reading_point h calls
    set v := (View.start (LineEnds.normalize text.toList)).after calls
    have hrest : v.rest ≠ [] := fun hnil => by
      rw [hend.mpr hnil] at hleft
      cases hleft
    obtain ⟨start, hline, hcolumn⟩ := line?_placeAfter v.passed v.rest hrest
    have hlines : s.lines = Lines.ofText (v.passed ++ v.rest) := by
      rw [← hwhole, eq_ofNormalized h]
      rfl
    refine ⟨String.ofList (start ++ v.rest.takeWhile (· ≠ '\n')), ?_, ?_⟩
    · rw [line?, lines_after, hlines, hposition]
      exact hline
    · rw [hposition, hcolumn, hnext, Nat.add_sub_cancel, String.toList_ofList, String.length_ofList]
      obtain ⟨c, rest, hsome⟩ := List.exists_cons_of_ne_nil hrest
      rw [hsome]
      by_cases hc : c = '\n'
      · exact .inr (by simp [hc])
      · exact .inl (by simp [hc])

/-- In a text of three lines, the second one empty, the next character is the end of that line. -/
theorem lines_agree_empty :
    ∃ s, ofText "m" "é\r\n\nx\r" = .ok s ∧ s.lines.count = 3 ∧
      "\n".intercalate ((List.range' 1 3).map fun n => (s.line? n).getD "") = "é\n\nx" ∧
      (s.after [.read, .consume]).atEnd = false ∧ ∃ line, (s.after [.read, .consume]).line? 2 = some line ∧
        (line.toList[0]? = some '\n' ∨ 0 = line.length ∧ '\n' = '\n') := by
  have h : ofText "m" "é\r\n\nx\r" = .ok (.ofNormalized "m" "é\n\nx\n".toList) := by rfl
  obtain ⟨-, hjoined, hnext⟩ := lines_agree h
  exact ⟨_, h, rfl, hjoined, rfl, hnext [.read, .consume] rfl⟩

end Source

end Modula
