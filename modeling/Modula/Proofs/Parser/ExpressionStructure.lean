import Modula.Proofs.Parser.ExpressionTrees
import Modula.Proofs.Parser.Reports
import Modula.Proofs.Reader.Revealing

/-!
# The structure of expressions

The parser takes an expression up to a symbol that can follow one, reports nothing, and yields the tree that every
derivation of the symbols means (`expression_structure`).
-/

set_option autoImplicit false

namespace Modula

open SymbolReader

/-- A state that has gone on from a start, before some symbols `v` of an expression that `u` come after. It has reported
the faults of the symbols that came into view, and nothing else. -/
structure ParserState.Amid (start : ParserState) (u : List Symbol) (s : ParserState) (v : List Symbol) : Prop where
  ready : s.Ready
  ahead : s.reader.ahead = v ++ u
  plain : ∀ t ∈ v, t.token.isPlain = true
  uncovers : Uncovers start.reader s.reader
  dropped : s.dropped = start.dropped

/-- A plain token is taken for itself, and is no pragma. -/
theorem Token.isPlain_iff {t : Token} : t.isPlain = true ↔ t.wellFormed = t ∧ t ≠ .pragma := by simp [isPlain]

/-- Before a plain token, symbols of plain tokens start with one. -/
theorem isPlain_firstToken {u v : List Symbol} (hv : ∀ t ∈ v, t.token.isPlain = true)
    (hu : (firstToken u).isPlain = true) : (firstToken (v ++ u)).isPlain = true := by
  cases v with
  | nil => exact hu
  | cons t v => exact hv t (by simp)

/-- An action that makes no remark reports the faults of the symbols that come into view and nothing else. -/
theorem Action.uncovers_perform {α : Type} {action : Action α} {s : ParserState} (h : action.remarks s = []) :
    Uncovers s.reader (action.perform s).2.reader :=
  action.keeps_perform (fun r hr => hr.trans (uncovers_read r)) (fun r hr => hr.trans (uncovers_peekSecond r))
    (by simp [h]) (fun _ _ hr => hr) (.refl s.reader)

namespace Action

variable {ctx : Context} {start s : ParserState} {u v : List Symbol} {α : Type}

/-- What actions show of the symbols of an expression, they do. -/
theorem amid_perform {action : Action α} {Q : α → List Symbol → Prop} (hu : (firstToken u).isPlain = true)
    (hs : start.Amid u s v) (hQ : (interpreting ctx u).act action v Q) :
    ∃ w, start.Amid u (action.perform s).2 w ∧ Q (action.perform s).1 w := by
  obtain ⟨hready, hleaves⟩ := action.perform_leaves hs.ready
  have hfirst : (firstToken s.reader.ahead).isPlain = true := by
    rw [hs.ahead]
    exact isPlain_firstToken hs.plain hu
  have hsettled : firstToken s.reader.ahead ≠ .pragma := (Token.isPlain_iff.mp hfirst).2
  have hamid : ∀ w, (action.perform s).2.reader.ahead = w ++ u → w <:+ v → action.isQuiet = true → action.remarks s = [] →
      start.Amid u (action.perform s).2 w := fun w hw hsuffix hquiet hremarks =>
    ⟨hready, hw, fun t ht => hs.plain t (hsuffix.subset ht), hs.uncovers.trans (action.uncovers_perform hremarks),
      (goesOn_perform hquiet s).2.trans hs.dropped⟩
  have hsame : action.accepts = false → action.isQuiet = true → action.remarks s = [] →
      start.Amid u (action.perform s).2 v := fun haccepts =>
    hamid v ((ahead_perform haccepts hs.ready hsettled).trans hs.ahead) (List.suffix_refl v)
  cases action with
  | lookahead =>
    refine ⟨v, hsame rfl rfl rfl, ?_⟩
    rw [lookahead_of_settled hs.ready hsettled, (Token.isPlain_iff.mp hfirst).1, hs.ahead]
    exact hQ
  | qualifies =>
    refine ⟨v, hsame rfl rfl rfl, ?_⟩
    rw [qualifies_of_settled hs.ready hsettled, hs.ahead]
    exact hQ
  | accept =>
    obtain ⟨t, w, rfl, hQ⟩ := hQ
    obtain ⟨hleft, hlexeme⟩ := hleaves
    have htail : s.reader.ahead.tail = w ++ u := by
      rw [hs.ahead]
      rfl
    have hnext : (firstToken (w ++ u)).isPlain = true := isPlain_firstToken (fun t ht => hs.plain t (by simp [ht])) hu
    rw [htail, withoutPragmas_of_settled (Token.isPlain_iff.mp hnext).2] at hleft
    refine ⟨w, hamid w hleft (List.suffix_cons t w) rfl rfl, ?_⟩
    rw [hlexeme t (by rw [hs.ahead]; rfl)]
    exact hQ
  | enter p | skipped n => exact ⟨v, hsame rfl rfl rfl, hQ⟩
  | build node =>
    cases node with
    | ok node => exact ⟨v, hsame rfl rfl rfl, hQ⟩
    | error e => exact hQ.elim
  | reject expected | rejectClosing closing | warnNext code | warnAccepted code => exact hQ.elim

end Action

/-- A run on the symbols of an expression does what its script interprets. -/
theorem Script.Advances.amid {ctx : Context} {limit : Nat} {α : Type} {script : Script α} {a : α}
    {start s s' : ParserState} {u v : List Symbol} (h : Script.Advances (Rule.body ctx) limit script s a s')
    {Q : α → List Symbol → Prop} (hu : (firstToken u).isPlain = true) (hs : start.Amid u s v)
    (hQ : script.Ensures (interpreting ctx u) v Q) : ∃ w, start.Amid u s' w ∧ Q a w := by
  have hcall : ∀ (rule : Rule) (v : List Symbol) (Q : Node → List Symbol → Prop), (interpreting ctx u).call rule v Q →
      (rule.body ctx).Ensures (interpreting ctx u) v Q := by
    intro rule v Q hQ
    cases rule with
    | expression =>
      obtain ⟨e, m, rfl, hm, hQ⟩ := hQ
      refine (Script.interprets_expression e m hm).mono ?_
      rintro n w ⟨rfl, rfl⟩
      exact hQ
    | typeExpression | variantFields | statementSequence | block => exact hQ.elim
  have hact : ∀ {γ : Type} (action : Action γ) (s : ParserState) (v : List Symbol) (Q : γ → List Symbol → Prop),
      start.Amid u s v → (interpreting ctx u).act action v Q → False ∨
        ∃ w, start.Amid u (action.perform s).2 w ∧ Q (action.perform s).1 w :=
    fun action s v Q hs hQ => .inr (action.amid_perform hu hs hQ)
  obtain hfalse | hkept := @Script.Ensures.holds _ (interpreting ctx u) _ _ _ _ _ _ _ _ (start.Amid u) (fun _ => False)
    hact (fun _ _ h => h) hcall h Q hs hQ
  · exact hfalse.elim
  · exact hkept

/-- Expressions get the right structure. Before a symbol that can follow an expression, symbols that the grammar derives
as an expression, with names as the types of set values, are taken, exactly they. Of the symbols that come into view on
the way the faults are reported, and nothing else; no node is dropped. The tree is what every derivation of the symbols
means, and there is a derivation. -/
theorem expression_structure (ctx : Context) (x : String) (w u : List Symbol) (closings : List (String × String))
    (s : ParserState) (depth : Nat)
    (hw : Derives (Grammar.naming ctx).rules x [.call .expression] w closings)
    (hu : (Production.expression.follow ctx).contains (firstToken u) = true)
    (hs : s.Ready) (hahead : s.reader.ahead = w ++ u) (hdepth : s.remaining < depth) :
    ∃ (tree : Node) (s' : ParserState), Rule.run (Rule.body ctx) depth .expression s = (tree, s') ∧
      (∃ e : Phrase .expression, e.symbols = w) ∧ (∀ e : Phrase .expression, e.symbols = w → tree = e.tree) ∧
      s'.reader.ahead = u ∧ Uncovers s.reader s'.reader ∧ s'.dropped = s.dropped ∧ s'.exhausted = s.exhausted := by
  have hplain : ∀ c v, ∀ t ∈ Token.all, (Production.expression.follow ⟨c, v⟩).contains t = true → t.isPlain = true := by
    decide
  have hplain : (firstToken u).isPlain = true := hplain ctx.constParameters ctx.variantRecords _ (Token.mem_all _) hu
  have hcompletes := Script.call_completes (Script.halts_body ctx) depth .expression s hs (Nat.lt_succ_self _) hdepth
  have hstart : s.Amid u s w := ⟨hs, hahead, hw.expression_within.2, .refl _, rfl⟩
  -- What every derivation means is the tree of the same run.
  have htree : ∀ e : Phrase .expression, e.symbols = w → ∃ v,
      s.Amid u (Rule.run (Rule.body ctx) depth .expression s).2 v ∧
        (Rule.run (Rule.body ctx) depth .expression s).1 = e.tree ∧ v = [] := by
    rintro e rfl
    refine hcompletes.advances.amid (Q := fun n v => n = e.tree ∧ v = []) hplain hstart ?_
    have hcall := Script.interprets_call (u := u) e [] hu
    rw [List.append_nil] at hcall
    exact hcall
  obtain ⟨e, he⟩ := exists_phrase hw
  obtain ⟨v, hend, -, rfl⟩ := htree e he
  refine ⟨_, _, rfl, ⟨e, he⟩, fun e he => ?_, hend.ahead, hend.uncovers, hend.dropped, hcompletes.bounded⟩
  obtain ⟨v, -, h, -⟩ := htree e he
  exact h

/-- A name without parts, which stands at a column of the first line. -/
def Phrase.name (lexeme : String) (column : Nat) : Phrase .designator :=
  .designator ⟨⟨⟨.ident, lexeme, ⟨1, column⟩⟩, rfl⟩, []⟩ .selected

/-- A factor taken for a sum. -/
def Phrase.ofFactor (factor : Phrase .factor) : Phrase (.operand .sum) := .term (.plain factor) .last

/-- A sum taken for an expression. -/
def Phrase.ofTerm (term : Phrase (.operand .sum)) : Phrase .expression := .simple (.unsigned term .last)

/-- The phrase of `-a.b^[i] * NOT f(x) + 2 # c DIV (d < 'e')`. -/
def Phrase.comparison : Phrase .expression :=
  .relation
    (.negative ⟨⟨.minus, "-", ⟨1, 1⟩⟩, rfl⟩
      (.term
        (.plain (.designated (.designator
          ⟨⟨⟨.ident, "a", ⟨1, 2⟩⟩, rfl⟩, [(⟨⟨.dot, ".", ⟨1, 3⟩⟩, rfl⟩, ⟨⟨.ident, "b", ⟨1, 4⟩⟩, rfl⟩)]⟩
          (.dereferenced ⟨⟨.caret, "^", ⟨1, 5⟩⟩, rfl⟩ (.indexed ⟨⟨.lbracket, "[", ⟨1, 6⟩⟩, rfl⟩
            (.one (.ofTerm (.ofFactor (.designated (.name "i" 7))))) ⟨⟨.rbracket, "]", ⟨1, 8⟩⟩, rfl⟩ .selected)))))
        (.joined ⟨⟨.star, "*", ⟨1, 10⟩⟩, .times, .times⟩
          (.complement ⟨⟨.kwNot, "NOT", ⟨1, 12⟩⟩, rfl⟩
            (.called (.name "f" 16) (.arguments ⟨⟨.lparen, "(", ⟨1, 17⟩⟩, rfl⟩
              (.one (.ofTerm (.ofFactor (.designated (.name "x" 18))))) ⟨⟨.rparen, ")", ⟨1, 19⟩⟩, rfl⟩)))
          .last))
      (.joined ⟨⟨.plus, "+", ⟨1, 21⟩⟩, .plus, .plus⟩
        (.ofFactor (.literal ⟨⟨.integer, "2", ⟨1, 23⟩⟩, .integer, .integer⟩)) .last))
    ⟨⟨.notEqual, "#", ⟨1, 25⟩⟩, .notEqual, .notEqual⟩
    (.unsigned
      (.term (.plain (.designated (.name "c" 27)))
        (.joined ⟨⟨.kwDiv, "DIV", ⟨1, 29⟩⟩, .integerQuotient, .integerQuotient⟩
          (.plain (.parenthesized ⟨⟨.lparen, "(", ⟨1, 33⟩⟩, rfl⟩
            (.relation (.unsigned (.ofFactor (.designated (.name "d" 34))) .last)
              ⟨⟨.less, "<", ⟨1, 36⟩⟩, .less, .less⟩
              (.unsigned (.ofFactor (.literal ⟨⟨.string, "'e'", ⟨1, 38⟩⟩, .string, .string⟩)) .last))
            ⟨⟨.rparen, ")", ⟨1, 41⟩⟩, rfl⟩))
          .last))
      .last)

/-- A comparison of a signed sum, in which a name has parts and selectors, with a product. -/
theorem expression_structure_comparison :
    ∃ (s : ParserState) (closings : List (String × String)),
      s = .start .standard (.ofSource .standard
        (.ofNormalized "m" "-a.b^[i] * NOT f(x) + 2 # c DIV (d < 'e');".toList)) ∧
      Derives (Grammar.naming .standard).rules "" [.call .expression] Phrase.comparison.symbols closings ∧
      (Production.expression.follow .standard).contains (firstToken [⟨.semicolon, ";", ⟨1, 42⟩⟩]) = true ∧ s.Ready ∧
      s.reader.ahead = Phrase.comparison.symbols ++ [⟨.semicolon, ";", ⟨1, 42⟩⟩] ∧ s.remaining < 27 ∧
      ∃ s', Rule.run (Rule.body .standard) 27 .expression s =
        (.inner .notEqual [
          .inner .plus [
            .inner .negation [
              .inner .times [
                .inner .indexing [.inner .dereference [.leaf .qualident ["a", "b"]], .inner .arguments [.leaf .ident ["i"]]],
                .inner .complement [.inner .functionCall [.leaf .ident ["f"], .inner .arguments [.leaf .ident ["x"]]]]]],
            .leaf .integer ["2"]],
          .inner .integerQuotient [
            .leaf .ident ["c"],
            .inner .less [.leaf .ident ["d"], .leaf .string ["'e'"]]]], s') ∧
        s'.reader.ahead = [⟨.semicolon, ";", ⟨1, 42⟩⟩] := by
  obtain ⟨s, hs⟩ : ∃ s : ParserState, s = .start .standard (.ofSource .standard
      (.ofNormalized "m" "-a.b^[i] * NOT f(x) + 2 # c DIV (d < 'e');".toList)) := ⟨_, rfl⟩
  have hready : s.Ready := by
    rw [hs]
    exact ready_start (by decide)
  have hahead : s.reader.ahead = Phrase.comparison.symbols ++ [⟨.semicolon, ";", ⟨1, 42⟩⟩] := by
    rw [hs]
    decide +kernel
  have hdepth : s.remaining < 27 := by
    rw [ParserState.remaining, hahead]
    decide
  obtain ⟨closings, hderives⟩ : ∃ closings,
      Derives (Grammar.naming .standard).rules "" [.call .expression] Phrase.comparison.symbols closings :=
    exists_derives_expression_iff.mpr ⟨Phrase.comparison, rfl⟩
  obtain ⟨tree, s', hrun, -, htree, hleft, -⟩ := expression_structure .standard "" Phrase.comparison.symbols
    [⟨.semicolon, ";", ⟨1, 42⟩⟩] closings s 27 hderives (by decide) hready hahead hdepth
  obtain rfl := htree Phrase.comparison rfl
  exact ⟨s, closings, hs, hderives, by decide, hready, hahead, hdepth, s', hrun, hleft⟩

end Modula
