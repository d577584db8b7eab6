import Mathlib.Data.Int.Cast.Basic
import Modula.Proofs.Scan.Gap

/-!
# The extent of a comment

The marks of a text, `(*` and `*)`, are read from left to right, and no character belongs to two of them. A comment is the
shortest start of a text in which its opening and the marks after it balance. If there is none, the comment is not closed
and takes the whole text. Nesting that is too deep is reported where it first becomes so (`comment_extent`).
-/

set_option autoImplicit false

namespace Modula.Scan

/-! ## Marks -/

/-- What marks a comment. -/
inductive Mark where
  /-- The two characters `(*`. -/
  | opening
  /-- The two characters `*)`. -/
  | closing
deriving DecidableEq

/-- The marks of a text, from left to right, without overlap. -/
def marks : List Char → List Mark
  | '(' :: '*' :: rest => .opening :: marks rest
  | '*' :: ')' :: rest => .closing :: marks rest
  | _ :: rest => marks rest
  | [] => []

/-- How many more openings than closings there are in a text. -/
def nesting (cs : List Char) : ℤ := (marks cs).count .opening - (marks cs).count .closing

/-- Without characters there are no comments. -/
@[simp] theorem nesting_nil : nesting [] = 0 := rfl

/-- One character is no mark of a comment. -/
@[simp] theorem nesting_singleton (c : Char) : nesting [c] = 0 := by simp [nesting, marks]

/-- An opening mark goes one level deeper. -/
@[simp] theorem nesting_opening (cs : List Char) : nesting ('(' :: '*' :: cs) = nesting cs + 1 := by
  simp only [nesting, marks, List.count_cons_self, List.count_cons_of_ne (show Mark.opening ≠ .closing by decide)]
  omega

/-- A closing mark comes one level back. -/
@[simp] theorem nesting_closing (cs : List Char) : nesting ('*' :: ')' :: cs) = nesting cs - 1 := by
  simp only [nesting, marks, List.count_cons_self, List.count_cons_of_ne (show Mark.closing ≠ .opening by decide)]
  omega

/-- Any other character stays on its level. -/
theorem nesting_other {c : Char} {cs : List Char} (h : isCommentMark (c :: cs) = false) :
    nesting (c :: cs) = nesting cs := by
  have hmarks : marks (c :: cs) = marks cs := by
    apply marks.eq_3
    · rintro rest rfl rfl
      simp [isCommentMark] at h
    · rintro rest rfl rfl
      simp [isCommentMark] at h
  rw [nesting, hmarks, nesting]

/-- A character that begins no mark begins none in a start of the text either. -/
theorem nesting_other_start {c : Char} {front tail : List Char} (h : isCommentMark (c :: (front ++ tail)) = false) :
    nesting (c :: front) = nesting front := by
  cases front with
  | nil => simp
  | cons d front => exact nesting_other (by simpa [isCommentMark] using h)

/-- The starts of a text that begins with a mark are two short ones, and the mark with a start of what comes after it. -/
theorem start_of_mark {a b : Char} {cs front tail : List Char} (h : a :: b :: cs = front ++ tail) :
    front = [] ∨ front = [a] ∨ ∃ front', front = a :: b :: front' ∧ cs = front' ++ tail := by
  match front, h with
  | [], _ => exact .inl rfl
  | [c], h => exact .inr (.inl (by rw [(List.cons.inj h).1]))
  | c :: d :: front', h =>
    simp only [List.cons_append, List.cons.injEq] at h
    exact .inr (.inr ⟨front', by rw [h.1, h.2.1], h.2.2⟩)

/-! ## Balance -/

/-- What is left of a comment starts inside it. -/
theorem CommentRest.depth_pos {closed : Bool} {depth : Nat} {cs : List Char} (h : CommentRest closed depth cs) :
    0 < depth := by
  induction h with
  | closed | unclosed | opening | closing => omega
  | other hc h ih => exact ih

/-- Inside so many comments, a text that closes them is the shortest one in which as many marks close as open, with
these; a text that ends inside has no start of that kind. -/
theorem CommentRest.nesting_pos {closed : Bool} {depth : Nat} {cs : List Char} (h : CommentRest closed depth cs) :
    (∀ front tail, cs = front ++ tail → tail ≠ [] → 0 < depth + nesting front) ∧
      (closed = true → depth + nesting cs = 0) ∧ (closed = false → 0 < depth + nesting cs) := by
  induction h with
  | closed =>
    refine ⟨fun front tail hsplit htail => ?_, fun _ => by simp, nofun⟩
    obtain rfl | rfl | ⟨front', -, hnil⟩ := start_of_mark hsplit
    · simp
    · simp
    · exact (htail (List.append_eq_nil_iff.mp hnil.symm).2).elim
  | unclosed =>
    refine ⟨fun front tail hsplit htail => ?_, nofun, fun _ => by simp⟩
    exact (htail (List.append_eq_nil_iff.mp hsplit.symm).2).elim
  | @opening closed depth cs h ih =>
    obtain ⟨hstarts, hclosed, hunclosed⟩ := ih
    -- a start of the text ends before the mark, within it or after it
    push_cast at hstarts hclosed hunclosed ⊢
    rw [nesting_opening]
    refine ⟨fun front tail hsplit htail => ?_, fun h => by have := hclosed h; omega, fun h => by have := hunclosed h; omega⟩
    obtain rfl | rfl | ⟨front', rfl, hfront⟩ := start_of_mark hsplit
    · rw [nesting_nil]
      omega
    · rw [nesting_singleton]
      omega
    · have hpos := hstarts front' tail hfront htail
      rw [nesting_opening]
      omega
  | @closing closed depth cs h ih =>
    obtain ⟨hstarts, hclosed, hunclosed⟩ := ih
    push_cast at hstarts hclosed hunclosed ⊢
    rw [nesting_closing]
    refine ⟨fun front tail hsplit htail => ?_, fun h => by have := hclosed h; omega, fun h => by have := hunclosed h; omega⟩
    obtain rfl | rfl | ⟨front', rfl, hfront⟩ := start_of_mark hsplit
    · rw [nesting_nil]
      omega
    · rw [nesting_singleton]
      omega
    · have hpos := hstarts front' tail hfront htail
      rw [nesting_closing]
      omega
  | @other closed depth c cs hc h ih =>
    obtain ⟨hstarts, hclosed, hunclosed⟩ := ih
    refine ⟨fun front tail hsplit htail => ?_, fun hend => ?_, fun hend => ?_⟩
    · cases front with
      | nil =>
        have hpos := h.depth_pos
        rw [nesting_nil]
        omega
      | cons d front =>
        obtain ⟨rfl, rfl⟩ := List.cons.inj hsplit
        rw [nesting_other_start hc]
        exact hstarts front tail rfl htail
    · rw [nesting_other hc]
      exact hclosed hend
    · rw [nesting_other hc]
      exact hunclosed hend

/-- The openings and closings of a text are as many. -/
def Balanced (cs : List Char) : Prop := (marks cs).count .opening = (marks cs).count .closing

/-- Marks are balanced if as many levels are opened as are closed. -/
theorem balanced_iff {cs : List Char} : Balanced cs ↔ nesting cs = 0 := by
  unfold Balanced nesting
  omega

/-- The shortest start of a text in which the marks balance, from the opening at its beginning on. -/
structure ShortestBalanced (text cs : List Char) : Prop where
  start : cs <+: text
  opens : ['(', '*'] <+: cs
  balanced : Balanced cs
  shortest : ∀ ds, ds <+: text → ['(', '*'] <+: ds → Balanced ds → cs <+: ds

/-! ## Depth -/

/-- No start of a text has so many more openings than closings. -/
def Shallow (limit : ℤ) (cs : List Char) : Prop := ∀ start, start <+: cs → nesting start ≤ limit

/-- After a start of a text comes the first opening that makes the nesting go beyond a limit. -/
structure FirstBeyond (limit : ℤ) (cs front : List Char) : Prop where
  opening : front ++ ['(', '*'] <+: cs
  beyond : nesting (front ++ ['(', '*']) = limit + 1
  first : Shallow limit front

variable {limit : ℤ} {cs front : List Char}

/-- Without characters no level is left. -/
theorem shallow_nil (h : 0 ≤ limit) : Shallow limit [] := by
  intro start hstart
  rw [List.prefix_nil.mp hstart, nesting_nil]
  exact h

/-- Before an opening mark there is a level less to stay below. -/
theorem Shallow.opening (h : Shallow limit cs) (hlimit : 0 ≤ limit + 1) : Shallow (limit + 1) ('(' :: '*' :: cs) := by
  rintro start ⟨tail, hsplit⟩
  obtain rfl | rfl | ⟨start', rfl, hstart⟩ := start_of_mark hsplit.symm
  · simpa using hlimit
  · simpa using hlimit
  · have hnesting := h start' ⟨tail, hstart.symm⟩
    rw [nesting_opening]
    omega

/-- Before a closing mark there is a level more. -/
theorem Shallow.closing (h : Shallow limit cs) (hlimit : 0 ≤ limit - 1) : Shallow (limit - 1) ('*' :: ')' :: cs) := by
  rintro start ⟨tail, hsplit⟩
  obtain rfl | rfl | ⟨start', rfl, hstart⟩ := start_of_mark hsplit.symm
  · simpa using hlimit
  · simpa using hlimit
  · have hnesting := h start' ⟨tail, hstart.symm⟩
    rw [nesting_closing]
    omega

/-- Before any other character there are as many. -/
theorem Shallow.other {c : Char} {tail : List Char} (h : Shallow limit cs) (hlimit : 0 ≤ limit)
    (hc : isCommentMark (c :: (cs ++ tail)) = false) : Shallow limit (c :: cs) := by
  rintro start ⟨more, hsplit⟩
  cases start with
  | nil => simpa using hlimit
  | cons d start =>
    obtain ⟨rfl, hcs⟩ := List.cons.inj hsplit
    rw [← hcs] at hc
    rw [nesting_other_start (List.append_assoc start more tail ▸ hc)]
    exact h start ⟨more, hcs⟩

/-- The first opener that is too deep stays the first with an opening mark before it, one level up. -/
theorem FirstBeyond.of_opening (h : FirstBeyond limit cs front) (hlimit : 0 ≤ limit + 1) :
    FirstBeyond (limit + 1) ('(' :: '*' :: cs) ('(' :: '*' :: front) where
  opening := by simpa using h.opening
  beyond := by
    have hbeyond := h.beyond
    rw [List.cons_append, List.cons_append, nesting_opening]
    omega
  first := h.first.opening hlimit

/-- So it does with a closing mark before it, one level down. -/
theorem FirstBeyond.of_closing (h : FirstBeyond limit cs front) (hlimit : 0 ≤ limit - 1) :
    FirstBeyond (limit - 1) ('*' :: ')' :: cs) ('*' :: ')' :: front) where
  opening := by simpa using h.opening
  beyond := by
    have hbeyond := h.beyond
    rw [List.cons_append, List.cons_append, nesting_closing]
    omega
  first := h.first.closing hlimit

/-- So it does with any other character before it. -/
theorem FirstBeyond.of_other {c : Char} (h : FirstBeyond limit cs front) (hlimit : 0 ≤ limit)
    (hc : isCommentMark (c :: cs) = false) : FirstBeyond limit (c :: cs) (c :: front) := by
  obtain ⟨tail, rfl⟩ := h.opening
  refine ⟨by simp, ?_, ?_⟩
  · rw [List.cons_append, nesting_other_start hc]
    exact h.beyond
  · rw [List.append_assoc] at hc
    exact h.first.other hlimit hc

/-- The first opening that is too deep is reported, and then that the comment is not closed if it is not. -/
theorem commentFrom_faults {closed : Bool} {depth : Nat} (h : CommentRest closed depth cs) (start p : Position)
    (length : Nat) {rest : List Char} (hrest : closed = false → rest = []) :
    let unclosed : List Diagnostic := if closed then [] else [.atPosition .unclosedComment start]
    (∀ q, (commentFrom start p depth length (some q) (cs ++ rest)).faults = .atPosition .commentTooDeep q :: unclosed) ∧
      (depth ≤ maxCommentDepth →
        Shallow (maxCommentDepth - depth) cs ∧ (commentFrom start p depth length none (cs ++ rest)).faults = unclosed ∨
          ∃ front, FirstBeyond (maxCommentDepth - depth) cs front ∧
            (commentFrom start p depth length none (cs ++ rest)).faults =
              .atPosition .commentTooDeep (p.afterAll front) :: unclosed) := by
  intro unclosed
  induction h generalizing p length with
  | closed =>
    refine ⟨fun q => by simp [commentFrom, unclosed], fun hdepth => .inl ⟨?_, by simp [commentFrom, unclosed]⟩⟩
    exact (shallow_nil (by decide)).closing (by decide)
  | @unclosed depth =>
    obtain rfl := hrest rfl
    refine ⟨fun q => by simp [commentFrom, unclosed], fun hdepth => .inl ⟨shallow_nil ?_, by simp [commentFrom, unclosed]⟩⟩
    omega
  | @opening closed depth cs h ih =>
    obtain ⟨hdeep, hnone⟩ := ih ((p.after '(').after '*') (length + 2) hrest
    have hlimit : (maxCommentDepth : ℤ) - (depth + 1 : ℕ) = maxCommentDepth - (depth + 2 : ℕ) + 1 := by
      push_cast
      omega
    refine ⟨fun q => ?_, fun hdepth => ?_⟩
    · simp only [List.cons_append, commentFrom, Option.some_or, ite_self]
      exact hdeep q
    · simp only [List.cons_append, commentFrom, Option.none_or]
      by_cases hbeyond : maxCommentDepth < depth + 1 + 1
      · -- this opening is the first one that is too deep
        rw [if_pos hbeyond]
        refine .inr ⟨[], ⟨⟨cs, rfl⟩, ?_, shallow_nil ?_⟩, hdeep p⟩
        · rw [List.nil_append, nesting_opening, nesting_nil]
          omega
        · omega
      · rw [if_neg hbeyond, hlimit]
        obtain ⟨hshallow, hfaults⟩ | ⟨front, hfirst, hfaults⟩ := hnone (by omega)
        · exact .inl ⟨hshallow.opening (by omega), hfaults⟩
        · exact .inr ⟨_, hfirst.of_opening (by omega), hfaults⟩
  | @closing closed depth cs h ih =>
    obtain ⟨hdeep, hnone⟩ := ih ((p.after '*').after ')') (length + 2) hrest
    have hlimit : (maxCommentDepth : ℤ) - (depth + 2 : ℕ) = maxCommentDepth - (depth + 1 : ℕ) - 1 := by
      push_cast
      omega
    have hinner : ¬depth + 2 = 1 := by omega
    refine ⟨fun q => ?_, fun hdepth => ?_⟩
    · simp only [List.cons_append, commentFrom, if_neg hinner]
      exact hdeep q
    · simp only [List.cons_append, commentFrom, if_neg hinner, hlimit]
      obtain ⟨hshallow, hfaults⟩ | ⟨front, hfirst, hfaults⟩ := hnone (by omega)
      · exact .inl ⟨hshallow.closing (by omega), hfaults⟩
      · exact .inr ⟨_, hfirst.of_closing (by omega), hfaults⟩
  | @other closed depth c cs hc h ih =>
    obtain ⟨hdeep, hnone⟩ := ih (p.after c) (length + 1) hrest
    have hmark : isCommentMark (c :: (cs ++ rest)) = false := by
      cases closed with
      | true => rwa [h.isCommentMark_append]
      | false => rwa [hrest rfl, List.append_nil]
    rw [List.cons_append, commentFrom_other _ _ _ _ _ hmark]
    refine ⟨fun q => ?_, fun hdepth => ?_⟩
    · rw [commentFrom_other _ _ _ _ _ hmark]
      exact hdeep q
    · obtain ⟨hshallow, hfaults⟩ | ⟨front, hfirst, hfaults⟩ := hnone hdepth
      · exact .inl ⟨hshallow.other (by omega) hmark, hfaults⟩
      · exact .inr ⟨_, hfirst.of_other (by omega) hc, hfaults⟩

/-! ## Comments -/

/-- In what a comment takes, the marks balance only at its end, and only if it is closed. -/
theorem CommentRest.balanced_start {closed : Bool} {skipped : List Char} (h : CommentRest closed 1 skipped)
    (hcs : cs <+: '(' :: '*' :: skipped) (hopens : ['(', '*'] <+: cs) (hbalanced : Balanced cs) :
    closed = true ∧ cs = '(' :: '*' :: skipped := by
  obtain ⟨hstarts, -, hunclosed⟩ := h.nesting_pos
  push_cast at hstarts hunclosed
  obtain ⟨start, rfl⟩ := hopens
  obtain ⟨tail, hsplit⟩ := hcs
  obtain rfl : start ++ tail = skipped := by simpa using hsplit
  have hnesting : nesting start + 1 = 0 := (nesting_opening start).symm.trans (balanced_iff.mp hbalanced)
  have htail : tail = [] := by
    by_contra hne
    have hpos := hstarts start tail rfl hne
    omega
  subst htail
  rw [List.append_nil] at hunclosed ⊢
  refine ⟨?_, rfl⟩
  cases closed with
  | true => rfl
  | false =>
    have hpos := hunclosed rfl
    omega

/-- What is reported of a comment: the first opening that is too deep, and its own opening if it is not closed. -/
theorem CommentRest.reported {closed : Bool} {skipped rest : List Char} (h : CommentRest closed 1 skipped)
    (hrest : closed = false → rest = []) (p : Position) :
    ∃ tooDeep, (comment p (skipped ++ rest)).faults =
        tooDeep ++ (if closed then [] else [.atPosition .unclosedComment p]) ∧
      (Shallow 100 ('(' :: '*' :: skipped) ∧ tooDeep = [] ∨
        ∃ front, FirstBeyond 100 ('(' :: '*' :: skipped) front ∧
          tooDeep = [.atPosition .commentTooDeep (p.afterAll front)]) := by
  obtain ⟨-, hreported⟩ := commentFrom_faults h p ((p.after '(').after '*') 2 hrest
  obtain ⟨hshallow, hfaults⟩ | ⟨front, hfirst, hfaults⟩ := hreported (by decide)
  · exact ⟨[], hfaults, .inl ⟨hshallow.opening (by decide), rfl⟩⟩
  · exact ⟨[.atPosition .commentTooDeep (p.afterAll ('(' :: '*' :: front))], hfaults,
      .inr ⟨_, hfirst.of_opening (by decide), rfl⟩⟩

/-- A comment takes the shortest start of a text in which its opening and the marks after it balance, and nothing is
reported of its end; if there is no such start, it takes the whole text, and it is reported once, at its opening, that
it is not closed. If the nesting in what it takes goes beyond the limit, this is reported once, at the first opening
that makes it do so. Nothing else is reported. -/
theorem comment_extent (p : Position) (rest : List Char) :
    ∃ consumed remaining tooDeep unclosed, '(' :: '*' :: rest = consumed ++ remaining ∧
      (comment p rest).length = consumed.length ∧ (comment p rest).faults = tooDeep ++ unclosed ∧
      (ShortestBalanced ('(' :: '*' :: rest) consumed ∧ unclosed = [] ∨
        (∀ cs, cs <+: '(' :: '*' :: rest → ['(', '*'] <+: cs → ¬Balanced cs) ∧ remaining = [] ∧
          unclosed = [.atPosition .unclosedComment p]) ∧
      (Shallow 100 consumed ∧ tooDeep = [] ∨
        ∃ front, FirstBeyond 100 consumed front ∧ tooDeep = [.atPosition .commentTooDeep (p.afterAll front)]) := by
  obtain ⟨closed, skipped, remaining, rfl, hlength, hrest, hend⟩ :=
    commentFrom_skips p ((p.after '(').after '*') 1 2 none rest (by omega)
  obtain ⟨tooDeep, hfaults, hreported⟩ := hrest.reported hend p
  refine ⟨'(' :: '*' :: skipped, remaining, tooDeep, _, rfl, ?_, hfaults, ?_, hreported⟩
  · rw [comment, hlength, List.length_cons, List.length_cons]
    omega
  · cases closed with
    | true =>
      have hbalanced : Balanced ('(' :: '*' :: skipped) := by
        have hnesting := hrest.nesting_pos.2.1 rfl
        rw [balanced_iff, nesting_opening]
        omega
      have hstart : '(' :: '*' :: skipped <+: '(' :: '*' :: (skipped ++ remaining) := ⟨remaining, rfl⟩
      -- no start that is shorter balances
      refine .inl ⟨⟨hstart, ⟨skipped, rfl⟩, hbalanced, fun cs hcs hopens hcs' => ?_⟩, rfl⟩
      obtain hlonger | hshorter := List.prefix_or_prefix_of_prefix hstart hcs
      · exact hlonger
      · obtain ⟨-, hsame⟩ := hrest.balanced_start hshorter hopens hcs'
        exact hsame ▸ List.prefix_refl cs
    | false =>
      obtain rfl := hend rfl
      refine .inr ⟨fun cs hcs hopens hbalanced => ?_, rfl, rfl⟩
      rw [List.append_nil] at hcs
      obtain ⟨hclosed, -⟩ := hrest.balanced_start hcs hopens hbalanced
      cases hclosed

/-- In `(*)*)` the characters of the opening are no part of a closing. -/
example : (comment .start [')', '*', ')', ' ']).length = 5 := rfl

end Modula.Scan
