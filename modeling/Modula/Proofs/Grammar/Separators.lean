import Modula.Proofs.Grammar.StatementParts

/-!
# Semicolons between statements

A semicolon separates two statements of a sequence if both could be replaced, with the semicolon, by a single one
(`Grammar.Separates`). Such a semicolon stands inside statements. The statement after it starts with a token of its
FIRST set, and the one before it ends neither in a point nor in a bar, nor in `RETURN` unless it is nothing else.
-/

set_option autoImplicit false

namespace Modula

/-! ## How texts end -/

mutual

/-- Whether every text of the expression is empty or ends in a good token, if that is so of the productions called. -/
def Ebnf.endsIn (good : Token → Bool) (called : List Production) : Ebnf → Bool
  | .token t => good t
  | .opening | .closing => good .ident
  | .call p | .named p => called.contains p
  | .alt a b => rowEndsIn good called a && rowEndsIn good called b
  | .many a => rowEndsIn good called a

/-- Whether this is so of a row. -/
def rowEndsIn (good : Token → Bool) (called : List Production) : List Ebnf → Bool
  | [] => true
  | e :: es => (e.endsIn good called || !allNullable es) && rowEndsIn good called es

end

section

variable {g : Grammar} {good : Token → Bool} {called : List Production} {x : String} {es : List Ebnf} {w : List Symbol}
  {closings : List (String × String)}

/-- A row ends well if its second part does, and its first part where the second one may be nothing. -/
theorem rowEndsIn_append {a : List Ebnf} (ha : (rowEndsIn good called a || !allNullable es) = true)
    (hes : rowEndsIn good called es = true) : rowEndsIn good called (a ++ es) = true := by
  induction a with
  | nil => exact hes
  | cons e a ih =>
    rw [List.cons_append, rowEndsIn, allNullable_append]
    rw [rowEndsIn] at ha
    grind

/-- The last symbol of two rows is that of the second one, unless that is empty. -/
theorem getLast?_append_of {P : Symbol → Prop} {w w' : List Symbol} (h : ∀ s ∈ w'.getLast?, P s)
    (hnil : w' = [] → ∀ s ∈ w.getLast?, P s) : ∀ s ∈ (w ++ w').getLast?, P s := by
  cases w' with
  | nil => simpa using hnil rfl
  | cons t w' =>
    rw [List.getLast?_append_cons]
    exact h

/-- What a row derives is empty or ends in a good token, if that has been checked. -/
theorem Derives.endsIn (hcalled : ∀ p ∈ called, rowEndsIn good called (g.rules p) = true)
    (h : Derives g.rules x es w closings) (hes : rowEndsIn good called es = true) :
    ∀ s ∈ w.getLast?, good s.token = true := by
  induction h with
  | nil => simp
  | @token x t es s w closings htoken h ih | @opening x es s w closings htoken hname h ih
  | @closing x es s w closings htoken h ih =>
    rw [rowEndsIn, Ebnf.endsIn, Bool.and_eq_true] at hes
    refine getLast?_append_of (w := [s]) (ih hes.2) ?_
    rintro rfl
    have hnull := h.suits.1 rfl
    simpa [htoken, hnull] using hes.1
  | call hcall h ihcall ih | named hcall h ihcall ih =>
    rw [rowEndsIn, Ebnf.endsIn, Bool.and_eq_true] at hes
    refine getLast?_append_of (ih hes.2) ?_
    rintro rfl
    have hnull := h.suits.1 rfl
    exact ihcall (hcalled _ (by simpa [hnull] using hes.1))
  | left h ih | right h ih =>
    rw [rowEndsIn, Ebnf.endsIn, Bool.and_eq_true] at hes
    exact ih (rowEndsIn_append (by grind) hes.2)
  | stop h ih =>
    rw [rowEndsIn, Bool.and_eq_true] at hes
    exact ih hes.2
  | more h ih =>
    refine ih (rowEndsIn_append ?_ hes)
    rw [rowEndsIn, Ebnf.endsIn, Bool.and_eq_true] at hes
    simp only [allNullable_cons]
    grind

end

/-- The productions of statements that end in a word or in an expression, and those of expressions. -/
def Production.ofEnded : List Production :=
  [.assignmentOrProcCall, .withStatement, .ifStatement, .caseStatement, .loopStatement, .whileStatement,
   .repeatStatement, .forStatement] ++ ofExpressions

/-- A statement ends neither in a point nor in a bar. If it ends in `RETURN` it is nothing else. -/
theorem Derives.last_statement {g : Grammar} {x : String} {w : List Symbol} {closings : List (String × String)}
    (h : Derives g.rules x [.call .statement] w closings) :
    ∀ s ∈ w.getLast?, (s.token ≠ .dot ∧ s.token ≠ .bar) ∧ (s.token = .kwReturn → w.map (·.token) = [.kwReturn]) := by
  let good (t : Token) : Bool := (t ≠ .dot ∧ t ≠ .bar) ∧ t ≠ .kwReturn
  have hcalled : ∀ p ∈ Production.ofEnded, rowEndsIn good Production.ofEnded (g.rules p) = true := by
    obtain ⟨⟨c, v⟩, n⟩ := g
    have hall : ∀ c v n, ∀ p ∈ Production.ofEnded,
        rowEndsIn good Production.ofEnded ((⟨⟨c, v⟩, n⟩ : Grammar).rules p) = true := by
      decide
    exact hall c v n
  have hended : ∀ {x es w closings}, Derives g.rules x es w closings → rowEndsIn good Production.ofEnded es = true →
      ∀ s ∈ w.getLast?, (s.token ≠ .dot ∧ s.token ≠ .bar) ∧ s.token ≠ .kwReturn :=
    fun h hes s hs => of_decide_eq_true (h.endsIn hcalled hes s hs)
  have hother : ∀ {x es w closings}, Derives g.rules x es w closings → rowEndsIn good Production.ofEnded es = true →
      ∀ s ∈ w.getLast?, (s.token ≠ .dot ∧ s.token ≠ .bar) ∧
        (s.token = .kwReturn → w.map (·.token) = [.kwReturn]) := by
    intro x es w closings h hes s hs
    obtain ⟨hmarks, hreturn⟩ := hended h hes s hs
    exact ⟨hmarks, fun hs => (hreturn hs).elim⟩
  cases h with
  | call hrow hnil =>
    cases hnil
    rw [List.append_nil]
    -- the second one of the alternatives is a return
    cases hrow with
    | left hrow => exact hother hrow (by decide)
    | right hrow =>
      cases hrow with
      | right hrow => exact hother hrow (by decide)
      | left hrow =>
        cases hrow with
        | call hrow hnil =>
          cases hnil
          rw [List.append_nil]
          cases hrow with
          | @token _ _ _ r w _ hreturn hvalue =>
            refine getLast?_append_of (w := [r]) (fun s hs => ?_) ?_
            · obtain ⟨hmarks, hother⟩ := hended hvalue (by decide) s hs
              exact ⟨hmarks, fun hs => (hother hs).elim⟩
            · rintro rfl
              simp [hreturn]

/-- The shortest statements are derived. -/
theorem Grammar.derives_return (g : Grammar) {s : Symbol} (hs : s.token = .kwReturn) :
    Derives g.rules "" [.call .statement] [s] [] := by
  have hvalue : Derives g.rules "" (g.rules .returnStatement) [s] [] := .token hs (.right .nil)
  have hstatement : Derives g.rules "" (g.rules .statement) [s] [] := .right (.left (.call hvalue .nil))
  exact .call hstatement .nil

/-- Leaving a loop is a statement. -/
theorem Grammar.derives_exit (g : Grammar) {s : Symbol} (hs : s.token = .kwExit) :
    Derives g.rules "" [.call .statement] [s] [] := by
  have hstatement : Derives g.rules "" (g.rules .statement) [s] [] :=
    .right (.right (.right (.right (.right (.right (.right (.right (.right (.token hs .nil)))))))))
  exact .call hstatement .nil

/-! ## Separators -/

/-- The symbols of a unit, but for a semicolon that separates two statements of a sequence: those before the two
statements, the first statement, the second one and the symbols after them. A single statement, such as an `EXIT`, could
stand in place of both. -/
structure Grammar.Separates (g : Grammar) (kind : UnitKind) (before first second after : List Symbol) : Prop where
  first : ∃ x closings, Derives g.rules x [.call .statement] first closings
  second : ∃ x closings, Derives g.rules x [.call .statement] second closings
  around : ∃ exit x closings, exit.token = .kwExit ∧
    Derives g.rules x (Grammar.start kind) (before ++ exit :: after) closings

namespace Grammar.Separates

variable {g : Grammar} {kind : UnitKind} {before first second after : List Symbol}
  (h : g.Separates kind before first second after)

include h

/-- The semicolon stands inside statements. -/
theorem inside : 0 < depthOf 0 (before ++ first) := by
  obtain ⟨exit, x, closings, hexit, haround⟩ := h.around
  obtain ⟨y, closings', hfirst⟩ := h.first
  have hstart : rowDepth 0 (Grammar.start kind) 0 some = some 0 := by cases kind <;> decide
  have hplaces : ExitsInside (0 + 0) (before ++ exit :: after) :=
    (haround.depth g.keepDepth le_rfl (fun _ => rfl) hstart).2
  rw [exitsInside_append, ExitsInside] at hplaces
  have hinside : 0 < depthOf 0 before := hplaces.2.1 hexit
  have hdepth : depthOf (depthOf 0 before - 1 + 1) first = depthOf 0 before - 1 + 1 :=
    (hfirst.depth g.keepDepth le_rfl (by simp) (show rowDepth 1 [.call .statement] 1 some = some 1 by decide)).1
  rw [show depthOf 0 before - 1 + 1 = depthOf 0 before by omega] at hdepth
  rw [depthOf_append, hdepth]
  exact hinside

/-- The second statement starts as a statement does. -/
theorem starts : ∃ s others, second = s :: others ∧ (Production.statement.first g.context).contains s.token = true := by
  obtain ⟨x, closings, hsecond⟩ := h.second
  cases second with
  | nil => simpa [Ebnf.isNullable, Production.isNullable] using hsecond.suits.1 rfl
  | cons s others =>
    have hfirst := hsecond.suits.2 s others rfl
    exact ⟨s, others, rfl, by simpa [Ebnf.isNullable, Production.isNullable] using hfirst⟩

/-- The symbol before the semicolon is neither a point nor a bar, and a `RETURN` only if that is the first statement. -/
theorem ends : ∃ s ∈ first.getLast?,
    (s.token ≠ .dot ∧ s.token ≠ .bar) ∧ (s.token = .kwReturn → first.map (·.token) = [.kwReturn]) := by
  obtain ⟨x, closings, hfirst⟩ := h.first
  cases hlast : first.getLast? with
  | none =>
    obtain rfl := List.getLast?_eq_none_iff.mp hlast
    simpa [Ebnf.isNullable, Production.isNullable] using hfirst.suits.1 rfl
  | some s => exact ⟨s, rfl, hfirst.last_statement s hlast⟩

end Grammar.Separates

end Modula
