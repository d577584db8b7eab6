import Modula.Proofs.Scan.Faults
import Modula.Proofs.Scan.Places

/-!
# Scanning in another context

A symbol that has no errors ends where it ends whatever comes after it, as long as the text after it starts in the same
way, or with a blank; and every symbol that is not the last thing in a text ends where it ends in a longer text
(`symbolAt_context`). Comments that are closed and disabled sections that have ended are skipped
whatever comes after them, so that the start of a gap can be taken off before a symbol is looked for (`Gap.takenOff`).
-/

set_option autoImplicit false

namespace Modula.Scan

/-! ## Symbols -/

/-- A text that can stand after a symbol in place of another one: it starts with a blank, or in the same way. Two points
in a row end a number, while one belongs to it. -/
def Replaces (after' after : List Char) : Prop :=
  after'.head? = some ' ' ∨ after'.head? = after.head? ∧ (['.', '.'] <+: after → ['.', '.'] <+: after')

/-- A blank can stand in front of any text, but for a point that would have been one of two. -/
theorem replaces_of_blank {kept rest more : List Char} (h : kept = ['.'] → rest.head? ≠ some '.') :
    Replaces (kept ++ ' ' :: more) (kept ++ rest) := by
  match kept with
  | [] => exact .inl rfl
  | [c] =>
    refine .inr ⟨rfl, ?_⟩
    rintro ⟨tail, htail⟩
    obtain ⟨rfl, rfl⟩ := List.cons.inj htail
    exact (h rfl rfl).elim
  | c :: d :: kept =>
    refine .inr ⟨rfl, ?_⟩
    rintro ⟨tail, htail⟩
    simp only [List.cons_append, List.cons.injEq] at htail
    obtain ⟨rfl, rfl, -⟩ := htail
    exact ⟨kept ++ ' ' :: more, rfl⟩

/-- A run of characters is followed by a character that does not belong to it, or by none. -/
theorem takeWhile_after (p : Char → Bool) (cs : List Char) :
    ∃ rest, cs = cs.takeWhile p ++ rest ∧ (∀ c ∈ cs.takeWhile p, p c = true) ∧ rest.takeWhile p = [] := by
  refine ⟨cs.dropWhile p, List.takeWhile_append_dropWhile.symm, fun c hc => List.mem_takeWhile_imp hc, ?_⟩
  rw [List.takeWhile_eq_nil_iff]
  intro hlength
  have hnot := List.head_dropWhile_not p (List.length_pos_iff.mp hlength)
  rw [List.head_eq_getElem] at hnot
  simpa using hnot

/-- A run ends before a text that can stand in place of the one that ended it. -/
theorem Replaces.takeWhile_eq_nil {p : Char → Bool} {after after' : List Char} (h : Replaces after' after)
    (hblank : p ' ' = false) (hstops : after.takeWhile p = []) : after'.takeWhile p = [] := by
  cases after' with
  | nil => rfl
  | cons d tail =>
    have hd : p d = false := by
      obtain hhead | ⟨hhead, -⟩ := h
      · rw [List.head?_cons, Option.some.injEq] at hhead
        rw [hhead, hblank]
      · obtain ⟨others, rfl⟩ := List.head?_eq_some_iff.mp hhead.symm
        by_contra hd
        simp [hd] at hstops
    simp [hd]

/-- A run of characters ends where none of them comes next. -/
theorem takeWhile_append {p : Char → Bool} {run rest : List Char} (hrun : ∀ c ∈ run, p c = true)
    (hrest : rest.takeWhile p = []) : (run ++ rest).takeWhile p = run := by
  rw [List.takeWhile_append_of_pos hrun, hrest, List.append_nil]

/-- A word does not depend on what comes after it, as long as that can stand there. -/
theorem word_context {rules : ScanRules} {cs after after' : List Char} (hsplit : cs = (word rules cs).2 ++ after)
    (h : Replaces after' after) : word rules ((word rules cs).2 ++ after') = word rules cs := by
  have hblank : isWordChar rules ' ' = false := by
    simp [isWordChar]
  obtain ⟨rest, hcs, hall, hrest⟩ := takeWhile_after (isWordChar rules) cs
  obtain rfl : rest = after := List.append_cancel_left (hcs.symm.trans hsplit)
  have htake := takeWhile_append hall (h.takeWhile_eq_nil hblank hrest)
  simp only [word] at htake ⊢
  rw [htake]

/-- After a text that stays, only a blank can come first in place of what came first. -/
theorem Replaces.head?_append {after after' : List Char} (h : Replaces after' after) (kept : List Char) :
    (kept ++ after').head? = (kept ++ after).head? ∨ (kept ++ after').head? = some ' ' := by
  cases kept with
  | nil => exact h.elim .inr fun hsame => .inl hsame.1
  | cons c kept => exact .inl rfl

/-- A text in place of one that does not start with a character does not start with it either. -/
theorem Replaces.not_starts {c : Char} {after after' : List Char} (h : Replaces after' after) (hc : c ≠ ' ')
    (hnone : ∀ tail, after = c :: tail → False) : ∀ tail, after' = c :: tail → False := by
  rintro tail rfl
  obtain hhead | ⟨hhead, -⟩ := h
  · exact hc (Option.some.inj hhead)
  · obtain ⟨others, rfl⟩ := List.head?_eq_some_iff.mp hhead.symm
    exact hnone others rfl

/-- An exponent with a sign is malformed if it has no digits. -/
theorem exponent_signed {c : Char} (hc : c = '+' ∨ c = '-') (cs : List Char) :
    exponent (c :: cs) = (if (cs.takeWhile Char.isDigit).isEmpty then .malformedReal else .real,
      c :: cs.takeWhile Char.isDigit) := by
  obtain rfl | rfl := hc <;> simp [exponent]

/-- So is one without a sign. -/
theorem exponent_unsigned {cs : List Char} (h : ¬(cs.head? = some '+' ∨ cs.head? = some '-')) :
    exponent cs = (if (cs.takeWhile Char.isDigit).isEmpty then .malformedReal else .real,
      cs.takeWhile Char.isDigit) := by
  simp [exponent, if_neg h]

/-- An exponent does not depend on what comes after it. -/
theorem exponent_context {cs after after' : List Char} (hsplit : cs = (exponent cs).2 ++ after)
    (h : Replaces after' after) : exponent ((exponent cs).2 ++ after') = exponent cs := by
  by_cases hsign : cs.head? = some '+' ∨ cs.head? = some '-'
  · obtain ⟨c, tail, rfl, hc⟩ : ∃ c tail, cs = c :: tail ∧ (c = '+' ∨ c = '-') := by
      cases cs with
      | nil => simp at hsign
      | cons c tail => exact ⟨c, tail, rfl, by simpa using hsign⟩
    rw [exponent_signed hc] at hsplit ⊢
    obtain ⟨rest, htail, hrun, hrest⟩ := takeWhile_after Char.isDigit tail
    obtain rfl : rest = after := List.append_cancel_left (htail.symm.trans (List.cons.inj hsplit).2)
    rw [List.cons_append, exponent_signed hc, takeWhile_append hrun (h.takeWhile_eq_nil rfl hrest)]
  · rw [exponent_unsigned hsign] at hsplit ⊢
    obtain ⟨rest, hcs, hrun, hrest⟩ := takeWhile_after Char.isDigit cs
    obtain rfl : rest = after := List.append_cancel_left (hcs.symm.trans hsplit)
    have hsign' : ¬((cs.takeWhile Char.isDigit ++ after').head? = some '+' ∨
        (cs.takeWhile Char.isDigit ++ after').head? = some '-') := by
      obtain hhead | hhead := h.head?_append (cs.takeWhile Char.isDigit)
      · rwa [hhead, ← hsplit]
      · simp [hhead]
    rw [exponent_unsigned hsign', takeWhile_append hrun (h.takeWhile_eq_nil rfl hrest)]

/-- A fraction with the run of digits given that it starts with. -/
def fractionAfter (run : List Char) : List Char → Spelled
  | 'E' :: tail => ((exponent tail).1, run ++ 'E' :: (exponent tail).2)
  | _ => (.real, run)

/-- A fraction is decided by what comes after its digits. -/
theorem fraction_append {run rest : List Char} (hrun : ∀ c ∈ run, c.isDigit = true)
    (hrest : rest.takeWhile Char.isDigit = []) : fraction (run ++ rest) = fractionAfter run rest := by
  simp only [fraction, takeWhile_append hrun hrest, List.drop_left]
  rfl

/-- So it does not depend on what comes after it all. -/
theorem fraction_context {cs after after' : List Char} (hsplit : cs = (fraction cs).2 ++ after)
    (h : Replaces after' after) : fraction ((fraction cs).2 ++ after') = fraction cs := by
  obtain ⟨rest, hcs, hrun, hrest⟩ := takeWhile_after Char.isDigit cs
  generalize cs.takeWhile Char.isDigit = run at hcs hrun
  subst hcs
  rw [fraction_append hrun hrest] at hsplit ⊢
  by_cases hE : ∃ tail, rest = 'E' :: tail
  · obtain ⟨tail, rfl⟩ := hE
    have htail : tail = (exponent tail).2 ++ after := by simpa [fractionAfter] using hsplit
    have hstop : ('E' :: ((exponent tail).2 ++ after')).takeWhile Char.isDigit = [] := by simp
    rw [fractionAfter, List.append_assoc, List.cons_append, fraction_append hrun hstop, fractionAfter,
      exponent_context htail h]
  · have hnone : ∀ tail, rest = 'E' :: tail → False := fun tail htail => hE ⟨tail, htail⟩
    rw [fractionAfter.eq_2 _ _ hnone] at hsplit ⊢
    obtain rfl : rest = after := List.append_cancel_left hsplit
    rw [fraction_append hrun (h.takeWhile_eq_nil rfl hrest), fractionAfter.eq_2 _ _ (h.not_starts (by decide) hnone)]

/-- A number with the run of digits in base sixteen given that it starts with. -/
def numberAfter (rules : ScanRules) (run : List Char) : List Char → Spelled
  | 'H' :: _ => (.integer, run ++ ['H'])
  | rest =>
    if run.all Char.isDigit then
      match rest with
      | '.' :: '.' :: _ => (.integer, run)
      | '.' :: tail => ((fraction tail).1, run ++ '.' :: (fraction tail).2)
      | _ => (.integer, run)
    else (suffixed rules run, run)

/-- A number is decided by what comes after its digits. -/
theorem number_append (rules : ScanRules) {run rest : List Char} (hrun : ∀ c ∈ run, isHexDigit c = true)
    (hrest : rest.takeWhile isHexDigit = []) : number rules (run ++ rest) = numberAfter rules run rest := by
  simp only [number, takeWhile_append hrun hrest, List.drop_left]
  rfl

/-- A single point after digits starts a fraction. -/
theorem numberAfter_point (rules : ScanRules) {run tail : List Char} (hrun : run.all Char.isDigit = true)
    (htail : tail.head? ≠ some '.') :
    numberAfter rules run ('.' :: tail) = ((fraction tail).1, run ++ '.' :: (fraction tail).2) := by
  have hpoints : ∀ others, tail = '.' :: others → False := fun others hothers => htail (by rw [hothers]; rfl)
  rw [numberAfter.eq_3 _ _ _ hpoints (by simp), if_pos hrun]

/-- A number ends with its digits before everything but a suffix and the point of a fraction. -/
theorem numberAfter_stops (rules : ScanRules) {run rest : List Char} (hH : rest.head? ≠ some 'H')
    (hpoint : run.all Char.isDigit = true → rest.head? = some '.' → ['.', '.'] <+: rest) :
    numberAfter rules run rest = (if run.all Char.isDigit then .integer else suffixed rules run, run) := by
  unfold numberAfter
  split
  · exact (hH rfl).elim
  split
  · next hrun =>
    split
    · rfl
    · next tail htail _ =>
      obtain ⟨others, hothers⟩ := hpoint hrun rfl
      simp only [List.cons_append, List.nil_append, List.cons.injEq, true_and] at hothers
      exact (htail others hothers.symm).elim
    · rfl
  · rfl

/-- A number does not depend on what comes after it. -/
theorem number_context {rules : ScanRules} {cs after after' : List Char} (hsplit : cs = (number rules cs).2 ++ after)
    (h : Replaces after' after) : number rules ((number rules cs).2 ++ after') = number rules cs := by
  obtain ⟨rest, hcs, hrun, hrest⟩ := takeWhile_after isHexDigit cs
  generalize cs.takeWhile isHexDigit = run at hcs hrun
  subst hcs
  rw [number_append rules hrun hrest] at hsplit ⊢
  by_cases hH : rest.head? = some 'H'
  · obtain ⟨tail, rfl⟩ := List.head?_eq_some_iff.mp hH
    have hstop : ('H' :: after').takeWhile isHexDigit = [] := by simp [isHexDigit]
    rw [numberAfter, List.append_assoc, List.singleton_append, number_append rules hrun hstop, numberAfter]
  by_cases hpoint : run.all Char.isDigit = true → rest.head? = some '.' → ['.', '.'] <+: rest
  · rw [numberAfter_stops rules hH hpoint] at hsplit ⊢
    obtain rfl : rest = after := List.append_cancel_left hsplit
    rw [number_append rules hrun (h.takeWhile_eq_nil (by decide) hrest), numberAfter_stops rules]
    · obtain hhead | hhead := h.head?_append []
      · exact fun hH' => hH (hhead.symm.trans hH')
      · exact fun hH' => by cases hhead.symm.trans hH'
    · intro hdigits hhead'
      obtain hhead | ⟨hhead, hpoints⟩ := h
      · cases hhead.symm.trans hhead'
      · exact hpoints (hpoint hdigits (hhead.symm.trans hhead'))
  · push Not at hpoint
    obtain ⟨hdigits, hhead, hpoints⟩ := hpoint
    obtain ⟨tail, rfl⟩ := List.head?_eq_some_iff.mp hhead
    have htail : tail.head? ≠ some '.' := by
      intro hsecond
      obtain ⟨others, rfl⟩ := List.head?_eq_some_iff.mp hsecond
      exact hpoints ⟨others, rfl⟩
    rw [numberAfter_point rules hdigits htail] at hsplit ⊢
    have hfraction : tail = (fraction tail).2 ++ after := by simpa using hsplit
    have hstop : ('.' :: ((fraction tail).2 ++ after')).takeWhile isHexDigit = [] := by simp [isHexDigit]
    have htail' : ((fraction tail).2 ++ after').head? ≠ some '.' := by
      obtain hsame | hblank := h.head?_append (fraction tail).2
      · rwa [hsame, ← hfraction]
      · simp [hblank]
    rw [List.append_assoc, List.cons_append, number_append rules hrun hstop, numberAfter_point rules hdigits htail',
      fraction_context hfraction h]

/-- Nor does a special symbol. -/
theorem special_context {rules : ScanRules} {c : Char} {kept after after' : List Char}
    (hspelling : (special rules (c :: (kept ++ after))).2 = c :: kept) (h : Replaces after' after) :
    special rules (c :: (kept ++ after')) = special rules (c :: (kept ++ after)) := by
  by_cases hknown : (special rules (c :: (kept ++ after))).1 = .unknown
  · rw [special_unknown hknown, special_unknown hknown]
  have hsplit : c :: (kept ++ after) = (special rules (c :: (kept ++ after))).2 ++ after := by rw [hspelling]; rfl
  rw [← List.cons_append, ← hspelling]
  generalize hspelled : special rules (c :: (kept ++ after)) = spelled at hsplit hknown ⊢
  clear hspelling
  generalize c :: (kept ++ after) = cs at hspelled hsplit
  unfold special at hspelled
  split at hspelled
  case h_5 =>
    cases hsynonyms : rules.synonyms with
    | true =>
      rw [hsynonyms, if_pos rfl] at hspelled
      subst hspelled
      exact (special.eq_5 _ _).trans (by simp [hsynonyms])
    | false =>
      rw [hsynonyms, if_neg (by simp)] at hspelled
      subst hspelled
      obtain rfl := (List.cons.inj hsplit).2
      have hdouble := h.not_starts (c := '=') (by decide) (by simp)
      by_cases hgreater : ∃ others, after' = '>' :: others
      · obtain ⟨others, rfl⟩ := hgreater
        exact (special.eq_5 _ _).trans (by simp [hsynonyms])
      · exact special.eq_12 _ _ hdouble fun others hothers => hgreater ⟨others, hothers⟩
  -- the first character of a longer symbol
  case h_12 _ _ hequal hgreater =>
    subst hspelled
    obtain rfl := (List.cons.inj hsplit).2
    exact special.eq_12 _ _ (h.not_starts (by decide) hequal) (h.not_starts (by decide) hgreater)
  case h_13 _ _ hequal =>
    subst hspelled
    obtain rfl := (List.cons.inj hsplit).2
    exact special.eq_13 _ _ (h.not_starts (by decide) hequal)
  case h_17 _ _ hpoint =>
    subst hspelled
    obtain rfl := (List.cons.inj hsplit).2
    exact special.eq_17 _ _ (h.not_starts (by decide) hpoint)
  case h_18 _ _ hequal =>
    subst hspelled
    obtain rfl := (List.cons.inj hsplit).2
    exact special.eq_18 _ _ (h.not_starts (by decide) hequal)
  case h_28 =>
    subst hspelled
    exact (hknown rfl).elim
  all_goals
    subst hspelled
    rfl

/-- What a word, a number or a special symbol is depends on its characters. -/
def spelledAt (rules : ScanRules) (c : Char) (rest : List Char) : Spelled :=
  if c.isAlpha then word rules (c :: rest)
  else if c.isDigit then number rules (c :: rest)
  else special rules (c :: rest)

/-- Nor does any symbol without faults of its own. -/
theorem spelledAt_context {rules : ScanRules} {c : Char} {kept after after' : List Char}
    (hspelling : (spelledAt rules c (kept ++ after)).2 = c :: kept) (h : Replaces after' after) :
    spelledAt rules c (kept ++ after') = spelledAt rules c (kept ++ after) := by
  unfold spelledAt at hspelling ⊢
  split
  · next halpha =>
    rw [if_pos halpha] at hspelling
    have hcontext := @word_context rules (c :: (kept ++ after)) after after' (by rw [hspelling]; rfl) h
    rwa [hspelling] at hcontext
  · next halpha =>
    rw [if_neg halpha] at hspelling
    split
    · next hdigit =>
      rw [if_pos hdigit] at hspelling
      have hcontext := @number_context rules (c :: (kept ++ after)) after after' (by rw [hspelling]; rfl) h
      rwa [hspelling] at hcontext
    · next hdigit =>
      rw [if_neg hdigit] at hspelling
      exact special_context hspelling h

/-- A text that can stand after a symbol with some faults in place of another one: after a symbol without errors, one
that starts with a blank or in the same way; after every symbol, what stands there if it is not the end of the text, with
more text after it. -/
inductive Suits (faults : List Diagnostic) (after' after : List Char) : Prop
  | replaces (hwell : Faultless faults) (h : Replaces after' after)
  | longer (more : List Char) (hafter : after ≠ []) (h : after' = after ++ more)

/-- What suits the faults of a symbol can stand after it. -/
theorem Suits.toReplaces {faults : List Diagnostic} {after' after : List Char} (h : Suits faults after' after) :
    Replaces after' after := by
  cases h with
  | replaces hwell h => exact h
  | longer more hafter h =>
    subst h
    exact .inr ⟨List.head?_append_of_ne_nil _ hafter, fun hpoints => hpoints.trans (List.prefix_append _ _)⟩

/-- Of the faults listed with a symbol, only its own matter. -/
theorem Suits.of_append {faults own : List Diagnostic} {after' after : List Char}
    (h : Suits (faults ++ own) after' after) : Suits own after' after := by
  cases h with
  | replaces hwell h => exact .replaces (faultless_append.mp hwell).2 h
  | longer more hafter h => exact .longer more hafter h

/-- A string does not depend on what comes after it; an unclosed one ends at the line end. -/
theorem string_context {rules : ScanRules} {p : Position} {quote : Char} {kept after after' : List Char}
    (hquote : quote = '\'' ∨ quote = '"') (hspelling : (string rules p quote (kept ++ after)).spelling = quote :: kept)
    (h : Suits (string rules p quote (kept ++ after)).faults after' after) :
    string rules p quote (kept ++ after') = string rules p quote (kept ++ after) := by
  obtain ⟨body, closing, after₀, stray, ending, hsplit, hstring, hbody, hend⟩ := string_parts rules p quote (kept ++ after)
  rw [hstring] at hspelling h
  obtain rfl : body ++ closing = kept := (List.cons.inj hspelling).2
  obtain rfl : after = after₀ := by simpa using hsplit
  -- the other text leaves the content as it is, and so it does the end
  have hparts : StringContent quote rules.escapes (closing ++ after') (p.after quote) body stray ∧
      StringEnd quote p closing after' ending := by
    cases h with
    | replaces hwell =>
      obtain ⟨-, rfl⟩ := List.append_eq_nil_iff.mp (hbody.eq_nil_of_faultless hend hwell)
      cases hend with
      | quote => exact ⟨hbody.of_head rfl, .quote⟩
    | longer more hafter hlonger =>
      subst hlonger
      have hne : closing ++ after ≠ [] := fun hnil => hafter (List.append_eq_nil_iff.mp hnil).2
      rw [← List.append_assoc]
      refine ⟨hbody.of_head (List.head?_append_of_ne_nil _ hne), ?_⟩
      cases hend with
      | quote => exact .quote
      | line => exact .line
      | text => exact (hafter rfl).elim
  rw [List.append_assoc, List.append_assoc, string_of_parts hquote hparts.1 hparts.2, string_of_parts hquote hbody hend]

/-- Nor does a pragma; an unclosed one ends with the text. -/
theorem pragma_context {p : Position} {kept after after' : List Char}
    (hspelling : (pragma p (kept ++ after)).spelling = '<' :: '*' :: kept)
    (h : Suits (pragma p (kept ++ after)).faults after' after) :
    pragma p (kept ++ after') = pragma p (kept ++ after) := by
  obtain ⟨content, after₀, hsplit, hcontent, hpragma⟩ | hpragma := pragma_parts p (kept ++ after)
  · rw [hpragma] at hspelling ⊢
    obtain rfl : content ++ ['*', '>'] = kept := by simpa using hspelling
    rw [List.append_assoc]
    exact pragma_closed p after' hcontent
  · -- a pragma that is not closed takes all of the text, and that is an error
    rw [hpragma] at hspelling h
    obtain rfl : after = [] := by simpa using hspelling
    cases h with
    | replaces hwell => cases hwell (.atPosition .unclosedPragma p) (by simp)
    | longer more hafter => exact (hafter rfl).elim

/-- A symbol is found wherever a suitable text comes after it. -/
theorem symbolAt_context {rules : ScanRules} {p : Position} {c : Char} {rest after after' : List Char}
    (hsplit : c :: rest = (symbolAt rules p c rest).spelling ++ after)
    (h : Suits (symbolAt rules p c rest).faults after' after) :
    ∃ rest', (symbolAt rules p c rest).spelling ++ after' = c :: rest' ∧
      symbolAt rules p c rest' = symbolAt rules p c rest ∧ (rest'.head? = rest.head? ∨ rest'.head? = some ' ') := by
  have hne := (symbolAt_spells rules p c rest).2.1
  obtain ⟨first, kept, hspelling⟩ := List.exists_cons_of_ne_nil hne
  rw [hspelling, List.cons_append] at hsplit
  obtain ⟨rfl, rfl⟩ := List.cons.inj hsplit
  have hreplaces := h.toReplaces
  have hhead := hreplaces.head?_append kept
  refine ⟨kept ++ after', by rw [hspelling]; rfl, ?_, hhead⟩
  unfold symbolAt at h hspelling ⊢
  split
  · next hquote =>
    rw [if_pos hquote] at h hspelling
    exact string_context hquote hspelling h
  · next hquote =>
    rw [if_neg hquote] at h hspelling
    by_cases hpragma : c = '<' ∧ (kept ++ after).head? = some '*'
    · rw [if_pos hpragma] at h hspelling ⊢
      obtain ⟨rfl, -⟩ := hpragma
      obtain ⟨kept, rfl⟩ : ∃ kept', kept = '*' :: kept' := by
        obtain ⟨content, -, -, -, hparts⟩ | hparts := pragma_parts p (kept ++ after).tail
        all_goals
          rw [hparts] at hspelling
          exact ⟨_, (List.cons.inj hspelling).2.symm⟩
      exact (if_pos ⟨rfl, rfl⟩).trans (pragma_context hspelling h)
    · -- no pragma comes about: where the next character is another one it is a blank
      have hpragma' : ¬(c = '<' ∧ (kept ++ after').head? = some '*') := by
        rintro ⟨hless, hstar⟩
        obtain hsame | hblank := hhead
        · exact hpragma ⟨hless, hsame.symm.trans hstar⟩
        · cases hblank.symm.trans hstar
      rw [if_neg hpragma] at hspelling
      rw [if_neg hpragma', if_neg hpragma]
      have hcontext := spelledAt_context hspelling hreplaces
      exact congrArg (fun spelled : Spelled => (⟨spelled.1, spelled.2, faults p spelled⟩ : Delimited)) hcontext

/-! ## Comments and disabled sections -/

/-- A comment that is closed is skipped whatever comes after it. -/
theorem commentFrom_closed {depth : Nat} {cs : List Char} (h : CommentRest true depth cs) (start p : Position)
    (length : Nat) (tooDeep : Option Position) (rest : List Char) :
    commentFrom start p depth length tooDeep (cs ++ rest) = commentFrom start p depth length tooDeep cs ∧
      (commentFrom start p depth length tooDeep cs).length = length + cs.length := by
  generalize hclosed : true = closed at h
  induction h generalizing p length tooDeep with
  | closed => exact ⟨by simp [commentFrom], by simp [commentFrom]⟩
  | unclosed => cases hclosed
  | @opening closed depth cs h ih =>
    simp only [List.cons_append, commentFrom, List.length_cons]
    obtain ⟨hsame, hlength⟩ := ih _ _ _ hclosed
    exact ⟨hsame, hlength.trans (by omega)⟩
  | @closing closed depth cs h ih =>
    simp only [List.cons_append, commentFrom, List.length_cons, if_neg (show ¬depth + 2 = 1 by omega)]
    obtain ⟨hsame, hlength⟩ := ih _ _ _ hclosed
    exact ⟨hsame, hlength.trans (by omega)⟩
  | @other closed depth c cs hc h ih =>
    subst hclosed
    rw [List.cons_append, commentFrom_other _ _ _ _ _ hc,
      commentFrom_other _ _ _ _ _ ((h.isCommentMark_append c rest).trans hc), List.length_cons]
    obtain ⟨hsame, hlength⟩ := ih (p.after c) (length + 1) tooDeep rfl
    exact ⟨hsame, hlength.trans (by omega)⟩

/-- A section that is closed has not been read yet. -/
theorem SectionRest.ne_nil {closes : Bool} {cs : List Char} (h : SectionRest true closes cs) : cs ≠ [] := by
  rintro rfl
  cases h

/-- A disabled section that has ended is skipped whatever comes after it. -/
theorem linesFrom_ended {closes : Bool} {cs : List Char} (h : SectionRest true closes cs) (line length : Nat)
    (rest : List Char) :
    linesFrom line closes length (cs ++ rest) = linesFrom line closes length cs ∧
      (linesFrom line closes length cs).2 = length + cs.length := by
  generalize hended : true = ended at h
  induction h generalizing line length with
  | ended => exact ⟨by cases rest <;> simp [linesFrom], by simp [linesFrom]⟩
  | cut => cases hended
  | @line ended cs h ih =>
    subst hended
    obtain ⟨c, others, rfl⟩ := List.exists_cons_of_ne_nil h.ne_nil
    obtain ⟨hsame, hlength⟩ := ih (line + 1) (length + 1) rfl
    have hcloses := h.closesSection_append rest
    rw [List.cons_append, closesSection_cons, closesSection_cons] at hcloses
    simp only [List.cons_append, linesFrom, Bool.false_eq_true, if_false, List.length_cons] at hsame hlength ⊢
    rw [hcloses, ← closesSection_cons]
    exact ⟨hsame, hlength.trans (by omega)⟩
  | @other ended closes c cs hc h ih =>
    rw [List.cons_append, linesFrom.eq_4 _ _ _ _ _ hc, linesFrom.eq_4 _ _ _ _ _ hc, List.length_cons]
    obtain ⟨hsame, hlength⟩ := ih line (length + 1) hended
    exact ⟨hsame, hlength.trans (by omega)⟩

end Modula.Scan
