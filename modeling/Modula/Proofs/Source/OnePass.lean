import Modula.Parser.Run
import Modula.Proofs.Source.LineEnds

/-!
# Line ends in one pass

Line ends are normalized in two passes over the whole text, one for the pairs and one for the carriage returns that are
left. To read the text once from left to right gives the same, whatever mix of line ends it has
(`LineEnds.normalize_eq_onePass`). So texts with the same lines are the same source, whichever line ends close them, if
only they are not too large (`Source.line_ends_alike`): the size is measured before line ends are normalized, but lines
are counted after it.
-/

set_option autoImplicit false

namespace Modula

namespace LineEnds

/-- Reads a text once, from left to right, and turns each line end on the way into a line feed. -/
def onePass : List Char → List Char
  | '\r' :: '\n' :: rest => '\n' :: onePass rest
  | '\r' :: rest => '\n' :: onePass rest
  | '\n' :: rest => '\n' :: onePass rest
  | c :: rest => c :: onePass rest
  | [] => []

/-- A pair makes one line end. -/
theorem normalize_pair (rest : List Char) : normalize ('\r' :: '\n' :: rest) = '\n' :: normalize rest := by
  have hbefore := joinPairsFrom_before [] ['\n'] rest
  rw [List.nil_append, List.reverse_singleton] at hbefore
  simp [normalize, joinPairs, joinPairsFrom, hbefore, replaceReturns]

/-- A character that does not start a pair is done in the second pass. -/
theorem normalize_cons {c : Char} {rest : List Char} (h : c = '\r' → rest.head? ≠ some '\n') :
    normalize (c :: rest) = (if c = '\r' then '\n' else c) :: normalize rest := by
  have hpair : ∀ more, c = '\r' → rest = '\n' :: more → False := by
    rintro more hc rfl
    exact h hc rfl
  have hbefore := joinPairsFrom_before [] [c] rest
  rw [List.nil_append, List.reverse_singleton] at hbefore
  simp [normalize, joinPairs, joinPairsFrom.eq_2 _ _ _ hpair, hbefore, replaceReturns]

/-- Two passes over a text do what one does. -/
theorem normalize_eq_onePass (text : List Char) : normalize text = onePass text := by
  fun_induction onePass text with
  | case1 rest ih => rw [normalize_pair, ih]
  | case2 rest hpair ih =>
    have hhead : rest.head? ≠ some '\n' := by
      intro hhead
      obtain ⟨more, rfl⟩ := List.head?_eq_some_iff.mp hhead
      exact hpair more rfl
    rw [normalize_cons fun _ => hhead, ih, if_pos rfl]
  | case3 rest ih => rw [normalize_cons (by simp), ih, if_neg (by decide)]
  | case4 c rest _ hreturn _ ih => rw [normalize_cons fun hc => (hreturn hc).elim, ih, if_neg hreturn]
  | case5 => rfl

/-- A text with its line ends normalized stays as it is when they are normalized again. -/
theorem normalize_normalize (text : List Char) : normalize (normalize text) = normalize text :=
  normalize_of_no_return (return_not_mem_normalize text)

/-! ## Lines with line ends of one kind -/

/-- The kinds of line ends. -/
def kinds : List (List Char) := [['\n'], ['\r', '\n'], ['\r']]

/-- The text in which the line end closes each of the lines. -/
def closedBy (lineEnd : List Char) (lines : List (List Char)) : List Char := lines.flatMap (· ++ lineEnd)

/-- Lines are closed one by one. -/
theorem closedBy_cons (lineEnd line : List Char) (lines : List (List Char)) :
    closedBy lineEnd (line :: lines) = line ++ (lineEnd ++ closedBy lineEnd lines) := by
  rw [closedBy, List.flatMap_cons, List.append_assoc]
  rfl

variable {lines : List (List Char)}

/-- A carriage return that closes a line is not the first half of a pair. -/
theorem head?_closedBy_return (h : ∀ line ∈ lines, '\n' ∉ line) : (closedBy ['\r'] lines).head? ≠ some '\n' := by
  intro hhead
  have hmem : '\n' ∈ closedBy ['\r'] lines := List.mem_of_mem_head? hhead
  obtain ⟨line, hline, hmem⟩ := List.mem_flatMap.mp hmem
  obtain hmem | hmem := List.mem_append.mp hmem
  · exact h line hline hmem
  · simp at hmem

/-- All line ends become line feeds, and what is between them stays. -/
theorem normalize_closedBy {lineEnd : List Char} (hkind : lineEnd ∈ kinds)
    (h : ∀ line ∈ lines, '\r' ∉ line ∧ '\n' ∉ line) : normalize (closedBy lineEnd lines) = closedBy ['\n'] lines := by
  induction lines with
  | nil => rfl
  | cons line lines ih =>
    obtain ⟨hreturn, -⟩ := h line (by simp)
    have hrest : ∀ line ∈ lines, '\r' ∉ line ∧ '\n' ∉ line := fun line hline => h line (by simp [hline])
    have hlast : line.getLast? ≠ some '\r' := fun hlast => hreturn (List.mem_of_getLast? hlast)
    have hclosed : normalize (lineEnd ++ closedBy lineEnd lines) = '\n' :: normalize (closedBy lineEnd lines) := by
      simp only [kinds, List.mem_cons, List.not_mem_nil, or_false] at hkind
      obtain rfl | rfl | rfl := hkind
      · exact normalize_cons (by simp)
      · exact normalize_pair _
      · exact normalize_cons fun _ => head?_closedBy_return fun line hline => (hrest line hline).2
    rw [closedBy_cons, closedBy_cons, normalize_append fun h => (hlast h).elim, normalize_of_no_return hreturn, hclosed, ih hrest]
    rfl

end LineEnds

namespace Source

open LineEnds

/-- Texts that are not too large are the same source if they are the same once their line ends are normalized. -/
theorem ofText_congr {text text' : List Char} (filename : String) (hsize : byteSize text ≤ SourceError.maxSize)
    (hsize' : byteSize text' ≤ SourceError.maxSize) (h : normalize text = normalize text') :
    ofText filename (String.ofList text) = ofText filename (String.ofList text') := by
  unfold byteSize at hsize hsize'
  rw [ofText, ofText, if_neg (Nat.not_lt.mpr hsize), if_neg (Nat.not_lt.mpr hsize'), String.toList_ofList,
    String.toList_ofList, h]

/-- Line ends are normalized as if the text was read once from left to right; no carriage return is left, and doing it
again changes nothing. Lines without line ends of their own make the same source, the same symbols and the same outcome
of a parse with any of the line ends that can close them, if the texts are not too large. -/
theorem line_ends_alike :
    (∀ text, normalize text = onePass text ∧ '\r' ∉ normalize text ∧ normalize (normalize text) = normalize text) ∧
      ∀ lines : List (List Char), (∀ line ∈ lines, '\r' ∉ line ∧ '\n' ∉ line) →
        ∀ e ∈ kinds, ∀ e' ∈ kinds, byteSize (closedBy e lines) ≤ SourceError.maxSize →
          byteSize (closedBy e' lines) ≤ SourceError.maxSize → ∀ filename,
            let text := String.ofList (closedBy e lines)
            let text' := String.ofList (closedBy e' lines)
            ofText filename text = ofText filename text' ∧
              ∀ o kind, (ofText filename text).map (Scan.symbols o.scanRules) =
                  (ofText filename text').map (Scan.symbols o.scanRules) ∧
                parseText o kind filename text = parseText o kind filename text' := by
  refine ⟨fun text => ⟨normalize_eq_onePass text, return_not_mem_normalize text, normalize_normalize text⟩, ?_⟩
  intro lines hlines e he e' he' hsize hsize' filename text text'
  have hsame : normalize (closedBy e lines) = normalize (closedBy e' lines) := by
    rw [normalize_closedBy he hlines, normalize_closedBy he' hlines]
  have hsource : ofText filename text = ofText filename text' := ofText_congr filename hsize hsize' hsame
  refine ⟨hsource, fun o kind => ⟨by rw [hsource], ?_⟩⟩
  rw [parseText, parseText, hsource]

/-- A module with an empty line, closed by pairs and by carriage returns. -/
theorem line_ends_alike_module :
    ofText "m" "MODULE M;\r\n\r\nEND M.\r\n" = .ok (ofNormalized "m" "MODULE M;\n\nEND M.\n".toList) ∧
      ofText "m" "MODULE M;\r\rEND M.\r" = .ok (ofNormalized "m" "MODULE M;\n\nEND M.\n".toList) ∧
      parseText .standard .implementation "m" "MODULE M;\r\n\r\nEND M.\r\n" =
        parseText .standard .implementation "m" "MODULE M;\r\rEND M.\r" := by
  have hsource : ofText "m" "MODULE M;\r\n\r\nEND M.\r\n" = .ok (ofNormalized "m" "MODULE M;\n\nEND M.\n".toList) := by rfl
  obtain ⟨hsame, halike⟩ := line_ends_alike.2 ["MODULE M;".toList, [], "END M.".toList] (by decide) ['\r', '\n']
    (by decide) ['\r'] (by decide) (by decide) (by decide) "m"
  exact ⟨hsource, hsame.symm.trans hsource, (halike .standard .implementation).2⟩

end Source

end Modula
