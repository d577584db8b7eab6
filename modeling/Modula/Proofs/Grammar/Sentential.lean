import Mathlib.Logic.Relation
import Modula.Proofs.Grammar.Outline
import Modula.Proofs.Grammar.Rules

/-!
# Sentential forms

The grammar proper has no empty sequences, no semicolon after the last item of one, and no absent cases: those are what
the parser warns about or what it passes over. Its derivations go from one sentential form to another. A form is a list
of tokens and productions, and one step replaces a production by a word of the regular language that its row stands for.
-/

set_option autoImplicit false

namespace Modula

open Ebnf

/-- The row of a production in the grammar proper. -/
def Grammar.strict (ctx : Context) : Production → List Ebnf
  | .fieldListSequence => separated .semicolon [call .fieldList]
  | .variantFieldListSeq => separated .semicolon [call .variantFieldList]
  | .formalParamList => separated .semicolon [call .formalParams]
  | .statementSequence => separated .semicolon [call .statement]
  | .variantFields =>
    token .kwCase :: opt [token .ident] :: token .colon :: call .qualident :: token .kwOf ::
      (separated .bar [call .variant] ++ [opt [token .kwElse, call .variantFieldListSeq], token .kwEnd])
  | .caseStatement =>
    token .kwCase :: call .expression :: token .kwOf ::
      (separated .bar [call .caseBranch] ++ [opt [token .kwElse, call .statementSequence], token .kwEnd])
  | p => Grammar.rules ⟨ctx, false⟩ p

/-- A letter of a sentential form. -/
inductive Sign where
  | token (t : Token)
  | production (p : Production)
deriving DecidableEq

/-- A list of tokens and productions. -/
abbrev Form := List Sign

/-! ## What rows expand to -/

mutual

/-- The forms that an expression stands for. -/
def Ebnf.language : Ebnf → Language Sign
  | .token t => {[.token t]}
  | .opening | .closing => {[.token .ident]}
  | .call p | .named p => {[.production p]}
  | .alt a b => rowLanguage a + rowLanguage b
  | .many a => KStar.kstar (rowLanguage a)

/-- The forms that a row stands for. -/
def rowLanguage : List Ebnf → Language Sign
  | [] => 1
  | e :: es => e.language * rowLanguage es

end

mutual

/-- The outline of what an expression stands for. -/
def Ebnf.outline : Ebnf → Outline Sign
  | .token t => .letter (.token t)
  | .opening | .closing => .letter (.token .ident)
  | .call p | .named p => .letter (.production p)
  | .alt a b => (rowOutline a).either (rowOutline b)
  | .many a => (rowOutline a).repeated

/-- The outline of what a row stands for. -/
def rowOutline : List Ebnf → Outline Sign
  | [] => .blank
  | e :: es => e.outline.followedBy (rowOutline es)

end

mutual

/-- The outline of an expression describes the forms that it stands for. -/
theorem Ebnf.outlines (e : Ebnf) : Outlines e.outline e.language := by
  cases e with
  | token t =>
    rw [Ebnf.outline, Ebnf.language]
    exact .letter _
  | opening =>
    rw [Ebnf.outline, Ebnf.language]
    exact .letter _
  | closing =>
    rw [Ebnf.outline, Ebnf.language]
    exact .letter _
  | call p =>
    rw [Ebnf.outline, Ebnf.language]
    exact .letter _
  | named p =>
    rw [Ebnf.outline, Ebnf.language]
    exact .letter _
  | alt a b =>
    rw [Ebnf.outline, Ebnf.language]
    exact (outlines_row a).either (outlines_row b)
  | many a =>
    rw [Ebnf.outline, Ebnf.language]
    exact (outlines_row a).repeated

/-- So does the outline of a row. -/
theorem outlines_row (es : List Ebnf) : Outlines (rowOutline es) (rowLanguage es) := by
  cases es with
  | nil =>
    rw [rowOutline, rowLanguage]
    exact .blank
  | cons e es =>
    rw [rowOutline, rowLanguage]
    exact e.outlines.followedBy (outlines_row es)

end

/-! ## Derivations -/

section

variable (rules : Production → List Ebnf)

/-- One production of a form is replaced by a form that its row stands for. -/
inductive Rewrites : Form → Form → Prop
  | expand {w : Form} (a : Form) (p : Production) (b : Form) (h : w ∈ rowLanguage (rules p)) :
      Rewrites (a ++ .production p :: b) (a ++ w ++ b)

/-- One form comes from another one by a number of replacements. -/
abbrev Yields : Form → Form → Prop := Relation.ReflTransGen (Rewrites rules)

end

variable {rules : Production → List Ebnf} {a b u u' v v' w : Form} {p : Production}

/-- A production may be replaced inside a form. -/
theorem Rewrites.inside (h : Rewrites rules u v) (a b : Form) : Rewrites rules (a ++ u ++ b) (a ++ v ++ b) := by
  obtain @⟨w, a', p, b', hw⟩ := h
  have hstep := Rewrites.expand (a ++ a') p (b' ++ b) hw
  simpa using hstep

/-- So may it be in several steps. -/
theorem Yields.inside (h : Yields rules u v) (a b : Form) : Yields rules (a ++ u ++ b) (a ++ v ++ b) :=
  h.lift (a ++ · ++ b) fun _ _ hstep => hstep.inside a b

/-- Two forms yield what each of them does. -/
theorem Yields.append (h : Yields rules u u') (h' : Yields rules v v') : Yields rules (u ++ v) (u' ++ v') := by
  have hleft := h.inside [] v
  have hright := h'.inside u' []
  simp only [List.nil_append, List.append_nil] at hleft hright
  exact hleft.trans hright

/-- A production yields what its row stands for. -/
theorem yields_row (h : w ∈ rowLanguage (rules p)) : Yields rules [.production p] w := by
  have hstep := Rewrites.expand [] p [] h
  exact .single (by simpa using hstep)

/-- A property of forms that each replacement keeps. -/
theorem Yields.keeps {P : Form → Prop} (hkeeps : ∀ {u v}, Rewrites rules u v → P u → P v) (h : Yields rules u v)
    (hu : P u) : P v := by
  induction h with
  | refl => exact hu
  | tail _ hstep ih => exact hkeeps hstep ih

end Modula
