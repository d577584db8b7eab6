import Modula.Proofs.Grammar.PhraseDerivations

/-!
# Where statements stand

How deep a text is in statements can be told from its tokens: `BEGIN` leads into the statements of a block, some
statements open with a word of their own, and `END` leads out again. A text outside of statements comes back to where
it started, and so does every statement (`Derives.depth`). That is a check on the rows of the grammar (`rowDepth`).
-/

set_option autoImplicit false

namespace Modula

/-! ## Depth -/

namespace Token

/-- Whether the token opens a statement that ends with `END`. -/
def opensStatement (t : Token) : Bool := [(.kwIf : Token), .kwCase, .kwLoop, .kwWhile, .kwFor, .kwWith].contains t

/-- How deep a text is in statements after a token, given how deep it is before. Outside of statements, `END` and the
words that open statements belong to types and modules. -/
def depthAfter (depth : Nat) (t : Token) : Nat :=
  if t = .kwBegin then depth + 1
  else if t = .kwEnd then depth - 1
  else if t.opensStatement ∧ 0 < depth then depth + 1
  else depth

end Token

/-- How deep a text is in statements after some symbols. -/
def depthOf (depth : Nat) (w : List Symbol) : Nat := w.foldl (fun d s => s.token.depthAfter d) depth

/-- Without symbols the depth stays. -/
@[simp] theorem depthOf_nil (d : Nat) : depthOf d [] = d := rfl

/-- The depth changes symbol by symbol. -/
@[simp] theorem depthOf_cons (d : Nat) (s : Symbol) (w : List Symbol) :
    depthOf d (s :: w) = depthOf (s.token.depthAfter d) w := rfl

/-- The depth changes over one row of symbols after the other. -/
theorem depthOf_append (d : Nat) (w w' : List Symbol) : depthOf d (w ++ w') = depthOf (depthOf d w) w' :=
  List.foldl_append

/-- Without `BEGIN` there is no way into statements. -/
theorem depthOf_of_no_begin {w : List Symbol} (h : ∀ s ∈ w, s.token ≠ .kwBegin) : depthOf 0 w = 0 := by
  induction w with
  | nil => rfl
  | cons s w ih =>
    have hs : s.token.depthAfter 0 = 0 := by simp [Token.depthAfter, h s (by simp)]
    rw [depthOf_cons, hs, ih fun t ht => h t (by simp [ht])]

/-- Every `EXIT` stands inside statements. -/
def ExitsInside : Nat → List Symbol → Prop
  | _, [] => True
  | d, s :: w => (s.token = .kwExit → 0 < d) ∧ ExitsInside (s.token.depthAfter d) w

/-- An exit in two rows is inside a loop if it is in either, at the depth where that starts. -/
theorem exitsInside_append {d : Nat} {w w' : List Symbol} :
    ExitsInside d (w ++ w') ↔ ExitsInside d w ∧ ExitsInside (depthOf d w) w' := by
  induction w generalizing d with
  | nil => simp [ExitsInside]
  | cons s w ih => simp [ExitsInside, ih, and_assoc]

/-! ## The depth of rows -/

namespace Production

/-- The productions that derive statements and their parts. -/
def ofStatements : List Production :=
  [.statementSequence, .statement, .assignmentOrProcCall, .returnStatement, .withStatement, .ifStatement,
   .caseStatement, .caseBranch, .loopStatement, .whileStatement, .repeatStatement, .forStatement]

/-- Whether the production is used outside of statements. -/
def isOutside (p : Production) : Bool := !ofStatements.contains p

/-- Whether the production is used inside statements. -/
def isInside (p : Production) : Bool :=
  [(.caseLabelList : Production), .caseLabels].contains p || ofStatements.contains p || ofExpressions.contains p

end Production

mutual

/-- The depth after a text of an expression of the grammar and what comes after that, if it is the same for all of its
texts, never below the floor, and if all productions are used where they belong, and `EXIT` inside statements. -/
def Ebnf.depth (floor : Nat) : Ebnf → Nat → (Nat → Option Nat) → Option Nat
  | .token t, d, rest => if floor ≤ t.depthAfter d ∧ (t = .kwExit → 0 < d) then rest (t.depthAfter d) else none
  | .opening, d, rest | .closing, d, rest => rest d
  | .call p, d, rest | .named p, d, rest => if (if d = 0 then p.isOutside else p.isInside) then rest d else none
  | .alt a b, d, rest => if rowDepth floor b d rest = rowDepth floor a d rest then rowDepth floor a d rest else none
  | .many a, d, rest => if rowDepth floor a d some = some d then rest d else none

/-- The depth after a text of a row and what comes after that, in the same way. -/
def rowDepth (floor : Nat) : List Ebnf → Nat → (Nat → Option Nat) → Option Nat
  | [], d, rest => rest d
  | e :: es, d, rest => e.depth floor d fun d' => rowDepth floor es d' rest

end

/-- The depth of a row is computed from part to part. -/
theorem rowDepth_append (floor : Nat) (es es' : List Ebnf) (d : Nat) (rest : Nat → Option Nat) :
    rowDepth floor (es ++ es') d rest = rowDepth floor es d fun d' => rowDepth floor es' d' rest := by
  induction es generalizing d with
  | nil => simp [rowDepth]
  | cons e es ih => simp [rowDepth, ih]

mutual

/-- If there is a depth, it is found at the end, whatever comes there. -/
theorem Ebnf.depth_rest {floor : Nat} {e : Ebnf} {d r : Nat} {y : Option Nat} {rest rest' : Nat → Option Nat}
    (hrest : ∀ d, rest d = some r → rest' d = y) (h : e.depth floor d rest = some r) : e.depth floor d rest' = y := by
  cases e with
  | token t =>
    simp only [Ebnf.depth, Option.ite_none_right_eq_some] at h ⊢
    rw [if_pos h.1, hrest _ h.2]
  | opening | closing =>
    simp only [Ebnf.depth] at h ⊢
    exact hrest _ h
  | call p | named p =>
    rw [Ebnf.depth, Option.ite_none_right_eq_some] at h
    rw [Ebnf.depth, if_pos h.1, hrest _ h.2]
  | alt a b =>
    rw [Ebnf.depth, Option.ite_none_right_eq_some] at h
    obtain ⟨hsame, ha⟩ := h
    have ha' := rowDepth_rest hrest ha
    have hb' := rowDepth_rest hrest (hsame.trans ha)
    rw [Ebnf.depth, ha', hb', if_pos rfl]
  | many a =>
    rw [Ebnf.depth, Option.ite_none_right_eq_some] at h
    rw [Ebnf.depth, if_pos h.1, hrest _ h.2]

/-- What comes after a row may be exchanged if it computes the same. -/
theorem rowDepth_rest {floor : Nat} {es : List Ebnf} {d r : Nat} {y : Option Nat} {rest rest' : Nat → Option Nat}
    (hrest : ∀ d, rest d = some r → rest' d = y) (h : rowDepth floor es d rest = some r) :
    rowDepth floor es d rest' = y := by
  cases es with
  | nil =>
    rw [rowDepth] at h ⊢
    exact hrest _ h
  | cons e es =>
    rw [rowDepth] at h ⊢
    exact Ebnf.depth_rest (fun d' => rowDepth_rest hrest) h

end

/-- Rules under which every text of a production comes back to the depth where it started, inside statements and
outside of them. -/
structure KeepDepth (rules : Production → List Ebnf) : Prop where
  inside : ∀ p : Production, p.isInside = true → rowDepth 1 (rules p) 1 some = some 1
  outside : ∀ p : Production, p.isOutside = true → rowDepth 0 (rules p) 0 some = some 0

/-- A text of a row leads to the depth that the row leads to, with every `EXIT` inside statements. Inside statements a
row may start deeper than it is checked. -/
theorem Derives.depth {rules : Production → List Ebnf} (hrules : KeepDepth rules) {x : String} {es : List Ebnf}
    {w : List Symbol} {closings : List (String × String)} (h : Derives rules x es w closings) {floor d deeper r : Nat}
    (hfloor : floor ≤ d) (hdeeper : floor = 0 → deeper = 0) (hrow : rowDepth floor es d some = some r) :
    depthOf (deeper + d) w = deeper + r ∧ ExitsInside (deeper + d) w := by
  induction h generalizing floor d deeper r with
  | nil =>
    rw [rowDepth, Option.some.injEq] at hrow
    exact ⟨by rw [hrow, depthOf_nil], trivial⟩
  | @token x t es s w closings htoken h ih =>
    rw [rowDepth, Ebnf.depth, Option.ite_none_right_eq_some] at hrow
    obtain ⟨⟨hlow, hexit⟩, hrow⟩ := hrow
    have hshift : t.depthAfter (deeper + d) = deeper + t.depthAfter d := by
      unfold Token.depthAfter at hlow ⊢
      split_ifs at hlow ⊢ <;> grind
    obtain ⟨hdepth, hexits⟩ := ih hlow hdeeper hrow
    rw [depthOf_cons, ExitsInside, htoken, hshift]
    exact ⟨hdepth, fun ht => by have := hexit ht; omega, hexits⟩
  | opening htoken hname h ih | closing htoken h ih =>
    rw [rowDepth, Ebnf.depth] at hrow
    have hident : ∀ d, Token.depthAfter d .ident = d := fun d => by simp [Token.depthAfter, Token.opensStatement]
    obtain ⟨hdepth, hexits⟩ := ih hfloor hdeeper hrow
    rw [depthOf_cons, ExitsInside, htoken, hident]
    exact ⟨hdepth, by simp, hexits⟩
  | @call x y p es w w' closings closings' hcall h ihcall ih | @named x p es w w' closings closings' hcall h ihcall ih =>
    rw [rowDepth, Ebnf.depth, Option.ite_none_right_eq_some] at hrow
    obtain ⟨hp, hrow⟩ := hrow
    -- a production keeps the depth: outside statements that is zero, and inside them what is deeper makes no difference
    have hsame : depthOf (deeper + d) w = deeper + d ∧ ExitsInside (deeper + d) w := by
      by_cases hzero : d = 0
      · subst hzero
        exact ihcall hfloor hdeeper (by simpa [Nat.le_zero.mp hfloor] using hrules.outside p (by simpa using hp))
      · rw [if_neg hzero] at hp
        have hinside : depthOf (deeper + d - 1 + 1) w = deeper + d - 1 + 1 ∧ ExitsInside (deeper + d - 1 + 1) w :=
          ihcall le_rfl (by simp) (hrules.inside p hp)
        rwa [show deeper + d - 1 + 1 = deeper + d by omega] at hinside
    obtain ⟨hdepth, hexits⟩ := ih hfloor hdeeper hrow
    rw [depthOf_append, exitsInside_append, hsame.1]
    exact ⟨hdepth, hsame.2, hexits⟩
  | left h ih =>
    rw [rowDepth, Ebnf.depth, Option.ite_none_right_eq_some] at hrow
    exact ih hfloor hdeeper (by rw [rowDepth_append, hrow.2])
  | right h ih =>
    rw [rowDepth, Ebnf.depth, Option.ite_none_right_eq_some] at hrow
    exact ih hfloor hdeeper (by rw [rowDepth_append, hrow.1, hrow.2])
  | stop h ih =>
    rw [rowDepth, Ebnf.depth, Option.ite_none_right_eq_some] at hrow
    exact ih hfloor hdeeper hrow.2
  | @more x a es w closings h ih =>
    obtain ⟨hround, -⟩ : rowDepth floor a d some = some d ∧ _ := by
      rwa [rowDepth, Ebnf.depth, Option.ite_none_right_eq_some] at hrow
    refine ih hfloor hdeeper ?_
    rw [rowDepth_append]
    exact rowDepth_rest (fun d' hd' => by rw [Option.some.inj hd', hrow]) hround

/-- Every production comes back to the depth where it started. -/
theorem Grammar.keepDepth (g : Grammar) : KeepDepth g.rules := by
  obtain ⟨⟨c, v⟩, n⟩ := g
  have h : ∀ c v n, ∀ p ∈ Production.all,
      (p.isInside = true → rowDepth 1 ((⟨⟨c, v⟩, n⟩ : Grammar).rules p) 1 some = some 1) ∧
        (p.isOutside = true → rowDepth 0 ((⟨⟨c, v⟩, n⟩ : Grammar).rules p) 0 some = some 0) := by
    decide
  exact ⟨fun p => (h c v n p p.mem_all).1, fun p => (h c v n p p.mem_all).2⟩

end Modula
