import Modula.Proofs.Scan.Gap
import Modula.Proofs.Source.LineTable

/-!
# The lines of a disabled section

A disabled section is skipped character by character, and it is told at the start of each line whether that line closes
it. Among the lines of the text it runs from the line of its opening to the first closing line after it, or else to the
last line of the text (`disabledSection_extent`, `linesFrom_isSectionEnd`).
-/

set_option autoImplicit false

namespace Modula

namespace Lines

/-- A line closes a disabled section. -/
def Closes (lines : Lines) (n : ℕ) : Prop := ∃ line, lines.line? n = some line ∧ ['>', '?'] <+: line.toList

/-- The last line of a disabled section that opens on a line: the first one after it that closes the section, or the last
line of the text if there is none. -/
def IsSectionEnd (lines : Lines) (first last : ℕ) : Prop :=
  first < last ∧ lines.Closes last ∧ (∀ n, first < n → n < last → ¬lines.Closes n) ∨
    (∀ n, first < n → ¬lines.Closes n) ∧ last = lines.count

end Lines

namespace Scan

/-- A section is closed by two characters. -/
theorem closesSection_iff {cs : List Char} : closesSection cs = true ↔ ['>', '?'] <+: cs := by
  rw [closesSection, decide_eq_true_eq, List.prefix_iff_eq_take]
  exact eq_comm

/-- Whether a line closes a section is told by that line alone. -/
theorem closesSection_takeWhile (cs : List Char) : closesSection (cs.takeWhile (· ≠ '\n')) = closesSection cs := by
  match cs with
  | [] => rfl
  | [c] => by_cases hc : c = '\n' <;> simp [hc, closesSection]
  | c :: d :: rest =>
    by_cases hc : c = '\n'
    · simp [hc, closesSection]
    · by_cases hd : d = '\n' <;> simp [hc, hd, closesSection]

/-- For each line of a text, whether it closes a section; for the first one this is given. -/
def closings (closes : Bool) (cs : List Char) : List Bool := closes :: (Lines.split cs).tail.map closesSection

/-- After a line end it is asked anew whether the line closes the section. -/
theorem closings_line (closes : Bool) {cs : List Char} (h : cs ≠ []) :
    closings closes ('\n' :: cs) = closes :: closings (closesSection cs) cs := by
  have hsplit : Lines.split cs ≠ [] := fun hnil => h (Lines.split_eq_nil_iff.mp hnil)
  obtain ⟨line, lines, hlines⟩ := List.exists_cons_of_ne_nil hsplit
  have hfirst : line = cs.takeWhile (· ≠ '\n') := by
    have hhead := Lines.head?_split h
    rw [hlines] at hhead
    exact Option.some.inj hhead
  rw [closings, closings, Lines.split_cons_line, hlines, List.tail_cons, List.tail_cons, List.map_cons, hfirst,
    closesSection_takeWhile]

/-- Within a line it is not. -/
theorem closings_other (closes : Bool) {c : Char} (hc : c ≠ '\n') (cs : List Char) :
    closings closes (c :: cs) = closings closes cs := by
  rw [closings, Lines.split_cons_other hc, List.tail_cons, closings]

/-- Skipping lines takes a run of the text up to the end of the first line that closes the section, or the whole text if
none does; that line, or the last one of the text, is the last of the section. The whole text is taken only if the last of
its lines is the last of the section. -/
theorem linesFrom_extent (line : ℕ) (closes : Bool) (length : ℕ) (cs : List Char) :
    ∃ run rest, cs = run ++ rest ∧ (linesFrom line closes length cs).2 = length + run.length ∧
      (linesFrom line closes length cs).1 =
        line + ((closings closes cs).findIdx? id).getD ((closings closes cs).length - 1) ∧
      (rest = [] ∧ (linesFrom line closes length cs).1 + 1 = line + (closings closes cs).length ∨
        run.getLast? = some '\n' ∧ (linesFrom line closes length cs).1 + 1 = line + run.count '\n') := by
  fun_induction linesFrom line closes length cs with
  | case1 line closes length =>
    refine ⟨[], [], rfl, rfl, ?_, .inl ⟨rfl, rfl⟩⟩
    cases closes <;> rfl
  -- the end of the line that closes the section
  | case2 line length rest => exact ⟨['\n'], rest, rfl, rfl, rfl, .inr ⟨rfl, rfl⟩⟩
  -- the end of the text, right after a line end
  | case3 line closes length hcloses =>
    obtain rfl : closes = false := by simpa using hcloses
    exact ⟨['\n'], [], rfl, rfl, rfl, .inl ⟨rfl, rfl⟩⟩
  -- a line end before one more line, which is told to close the section or not
  | case4 line closes length hcloses c rest ih =>
    obtain rfl : closes = false := by simpa using hcloses
    obtain ⟨run, rest', hsplit, hlength, hlast, hend⟩ := ih
    rw [← closesSection_cons] at hlast hend hlength ⊢
    have hflags := closings_line false (List.cons_ne_nil c rest)
    refine ⟨'\n' :: run, rest', by rw [hsplit]; rfl, ?_, ?_, ?_⟩
    · rw [hlength, List.length_cons]
      omega
    · rw [hlast, hflags, List.findIdx?_cons]
      cases hfind : (closings (closesSection (c :: rest)) (c :: rest)).findIdx? id with
      | none => simp [closings]; omega
      | some k => simp; omega
    · obtain ⟨hnil, hcount⟩ | ⟨hline, hcount⟩ := hend
      · refine .inl ⟨hnil, ?_⟩
        rw [hcount, hflags, List.length_cons]
        omega
      · refine .inr ⟨?_, ?_⟩
        · rw [List.getLast?_cons, hline]
          rfl
        · rw [hcount, List.count_cons_self]
          omega
  | case5 line closes length c rest hc ih =>
    obtain ⟨run, rest', rfl, hlength, hlast, hend⟩ := ih
    refine ⟨c :: run, rest', rfl, ?_, ?_, ?_⟩
    · rw [hlength, List.length_cons]
      omega
    · rw [hlast, closings_other closes hc]
    · obtain ⟨hnil, hcount⟩ | ⟨hline, hcount⟩ := hend
      · exact .inl ⟨hnil, by rw [hcount, closings_other closes hc]⟩
      · refine .inr ⟨?_, ?_⟩
        · rw [List.getLast?_cons, hline]
          rfl
        · rw [hcount, List.count_cons_of_ne hc]

/-- The lines of a section do not end before they start. -/
theorem line_le_linesFrom (line : ℕ) (closes : Bool) (length : ℕ) (cs : List Char) :
    line ≤ (linesFrom line closes length cs).1 := by
  obtain ⟨-, -, -, -, hlast, -⟩ := linesFrom_extent line closes length cs
  rw [hlast]
  exact Nat.le_add_right _ _

/-- A disabled section takes the lines up to its last one, with their line ends, or the whole text, and it is reported with
just these lines. -/
theorem disabledSection_extent (line : ℕ) {cs : List Char} (hcs : cs ≠ []) :
    ∃ run rest, cs = run ++ rest ∧ run ≠ [] ∧ (disabledSection line cs).length = run.length ∧
      (disabledSection line cs).faults =
        [{ code := .disabledSection, lines := some ⟨line, (linesFrom line false 0 cs).1⟩ }] ∧
      (rest = [] ∧ (linesFrom line false 0 cs).1 + 1 = line + (closings false cs).length ∨
        run.getLast? = some '\n' ∧ (linesFrom line false 0 cs).1 + 1 = line + run.count '\n') := by
  obtain ⟨run, rest, hsplit, hlength, -, hend⟩ := linesFrom_extent line false 0 cs
  refine ⟨run, rest, hsplit, ?_, hlength.trans (Nat.zero_add _), rfl, hend⟩
  rintro rfl
  obtain ⟨rfl, -⟩ | ⟨hline, -⟩ := hend
  · exact hcs hsplit
  · cases hline

/-- The lines of a text in which whole lines come before the place where the lines of a section are looked at. -/
theorem count_after {passed cs : List Char} (hpassed : passed = [] ∨ passed.getLast? = some '\n') (hcs : cs ≠ []) :
    (Lines.ofText (passed ++ cs)).count = passed.count '\n' + (closings false cs).length := by
  have hsplit : Lines.split cs ≠ [] := fun hnil => hcs (Lines.split_eq_nil_iff.mp hnil)
  have hpos := List.length_pos_iff.mpr hsplit
  obtain ⟨hlength, happend⟩ := Lines.split_append hpassed cs
  rw [Lines.count_ofText, Lines.texts, if_neg (by simp [hcs]), happend, List.length_append, hlength, closings,
    List.length_cons, List.length_map, List.length_tail]
  omega

/-- Behind whole lines, a line of the text closes the section if it does counted from there. -/
theorem closes_after_iff {passed cs : List Char} (hpassed : passed = [] ∨ passed.getLast? = some '\n') (hcs : cs ≠ [])
    {k : ℕ} (hk : 0 < k) : (Lines.ofText (passed ++ cs)).Closes (passed.count '\n' + 1 + k) ↔
      (closings false cs)[k]? = some true := by
  obtain ⟨m, rfl⟩ : ∃ m, k = m + 1 := ⟨k - 1, by omega⟩
  have hflag : (closings false cs)[m + 1]? = (Lines.split cs)[m + 1]?.map closesSection := by
    rw [closings, List.getElem?_cons_succ, List.getElem?_map, List.getElem?_tail]
  rw [Lines.Closes, Lines.line?_append hpassed hcs, hflag]
  cases (Lines.split cs)[m + 1]? with
  | none => simp
  | some line => simp [closesSection_iff]

/-- The last line of a section that opens at the start of a line of a text. -/
theorem linesFrom_isSectionEnd {passed cs : List Char} (hpassed : passed = [] ∨ passed.getLast? = some '\n')
    (hcs : cs ≠ []) (length : ℕ) :
    (Lines.ofText (passed ++ cs)).IsSectionEnd (passed.count '\n' + 1)
      (linesFrom (passed.count '\n' + 1) false length cs).1 := by
  obtain ⟨-, -, -, -, hlast, -⟩ := linesFrom_extent (passed.count '\n' + 1) false length cs
  rw [hlast]
  cases hfind : (closings false cs).findIdx? id with
  | none =>
    have hnone := List.findIdx?_eq_none_iff.mp hfind
    refine .inr ⟨fun n hn hcloses => ?_, ?_⟩
    · obtain ⟨k, rfl⟩ : ∃ k, n = passed.count '\n' + 1 + k := ⟨n - (passed.count '\n' + 1), by omega⟩
      have hflag := (closes_after_iff hpassed hcs (by omega)).mp hcloses
      cases hnone true (List.mem_of_getElem? hflag)
    · have hpos : 0 < (closings false cs).length := Nat.succ_pos _
      rw [count_after hpassed hcs, Option.getD_none]
      omega
  | some k =>
    obtain ⟨hk, hcloses, hearlier⟩ := List.findIdx?_eq_some_iff_getElem.mp hfind
    have hpos : 0 < k := by
      apply Nat.pos_of_ne_zero
      rintro rfl
      cases hcloses
    rw [Option.getD_some]
    refine .inl ⟨by omega, (closes_after_iff hpassed hcs hpos).mpr ?_, fun n hn hlater hcloses' => ?_⟩
    · rw [List.getElem?_eq_getElem hk]
      exact congrArg some hcloses
    · obtain ⟨m, rfl⟩ : ∃ m, n = passed.count '\n' + 1 + m := ⟨n - (passed.count '\n' + 1), by omega⟩
      have hflag := (closes_after_iff hpassed hcs (by omega)).mp hcloses'
      have hm : m < k := by omega
      rw [List.getElem?_eq_getElem (hm.trans hk)] at hflag
      exact hearlier m hm (Option.some.inj hflag)

end Scan

end Modula
