import Modula.Proofs.Grammar.PhraseDerivations
import Modula.Proofs.Parser.ExpressionRows
import Modula.Proofs.Parser.Settled

/-!
# The trees of expressions

What each script for a part of an expression takes and yields, phrase by phrase. The scripts see the symbols of a text
(`interpreting`): before a symbol that can follow the part, a phrase of it is taken, and the result is what the phrase
means (`Script.Interprets`). For expressions themselves this is `Script.interprets_expression`.
-/

set_option autoImplicit false

namespace Modula

open SymbolReader

/-- What actions show of the symbols of a text, which symbols `u` come after. The text is one that parsing takes and
nothing is rejected, nor is a node refused. Expressions are taken with their trees. -/
def interpreting (ctx : Context) (u : List Symbol) : Abstraction (List Symbol) where
  act
    | .lookahead, v, Q => Q (firstToken (v ++ u)) v
    | .qualifies, v, Q => Q (decide (firstToken (v ++ u) = .dot ∧ firstToken (v ++ u).tail = .ident)) v
    | .accept, v, Q => ∃ s w, v = s :: w ∧ Q s.lexeme w
    | .enter _, v, Q | .skipped _, v, Q => Q () v
    | .build (.ok node), v, Q => Q node v
    | .build (.error _), _, _ | .reject _, _, _ | .rejectClosing _, _, _ | .warnNext _, _, _ | .warnAccepted _, _, _ => False
  call
    | .expression, v, Q => ∃ (e : Phrase .expression) (m : List Symbol), v = e.symbols ++ m ∧
        (Production.expression.follow ctx).contains (firstToken (m ++ u)) = true ∧ Q e.tree m
    | _, _, _ => False
  progress _ _ := True
  act_mono := by
    intro α action v P Q hPQ h
    cases action with
    | lookahead | qualifies => exact hPQ _ _ h
    | accept =>
      obtain ⟨s, w, rfl, h⟩ := h
      exact ⟨s, w, rfl, hPQ _ _ h⟩
    | enter p | skipped n => exact hPQ _ _ h
    | reject expected | rejectClosing closing | warnNext code | warnAccepted code => exact h
    | build node =>
      cases node with
      | ok node => exact hPQ _ _ h
      | error e => exact h
  call_mono := by
    intro rule v P Q hPQ h
    cases rule with
    | expression =>
      obtain ⟨e, m, hv, hm, h⟩ := h
      exact ⟨e, m, hv, hm, hPQ _ _ h⟩
    | typeExpression | variantFields | statementSequence | block => exact h

namespace Script

/-! ## The tables of the parser -/

/-- The parser's table of the operators of a rank. -/
def joining? : Rank → Token → Option NodeType
  | .sum => adding?
  | .product => multiplying?

/-- The parser gives each operator of a sum or of a product its own node. -/
theorem joining?_eq_some_iff {rank : Rank} {t : Token} {type : NodeType} :
    joining? rank t = some type ↔ Joins rank t type := by
  constructor
  · intro h
    cases rank with
    | sum =>
      change adding? t = some type at h
      unfold adding? at h
      split at h <;> cases h <;> constructor
    | product =>
      change multiplying? t = some type at h
      unfold multiplying? at h
      split at h <;> cases h <;> constructor
  · rintro ⟨⟩ <;> rfl

/-- The parser gives each relation its own node. -/
theorem relation?_eq_some_iff {t : Token} {type : NodeType} : relation? t = some type ↔ Relates t type := by
  constructor
  · intro h
    unfold relation? at h
    split at h <;> cases h <;> constructor
  · rintro ⟨⟩ <;> rfl

/-- The parser gives each literal its own node. -/
theorem literal?_eq_some_iff {t : Token} {type : NodeType} : literal? t = some type ↔ Represents t type := by
  constructor
  · intro h
    unfold literal? at h
    split at h <;> cases h <;> constructor
  · rintro ⟨⟩ <;> rfl

variable {ctx : Context} {u : List Symbol} {α β : Type}

/-- A script takes the symbols `w`, before one of some tokens, and yields `a`. -/
def Interprets (ctx : Context) (u : List Symbol) (script : Script α) (after : TokenSet) (w : List Symbol) (a : α) : Prop :=
  ∀ m, after.contains (firstToken (m ++ u)) = true →
    script.Ensures (interpreting ctx u) (w ++ m) fun b v => b = a ∧ v = m

namespace Interprets

variable {script : Script α} {after : TokenSet} {w m v : List Symbol} {a : α} {Q : β → List Symbol → Prop}

/-- A script goes on after a first one, which takes some of the symbols. -/
theorem bind {next : α → Script β} (h : script.Interprets ctx u after w a)
    (hm : after.contains (firstToken (m ++ u)) = true) (hnext : (next a).Ensures (interpreting ctx u) m Q) :
    (script >>= next).Ensures (interpreting ctx u) (w ++ m) Q := by
  refine ensures_bind.mpr ((h m hm).mono ?_)
  rintro b v ⟨rfl, rfl⟩
  exact hnext

/-- Entering a production takes no symbol of the text. -/
theorem enter {p : Production} {next : Unit → Script β} (hnext : (next ()).Ensures (interpreting ctx u) v Q) :
    (Script.enter p >>= next).Ensures (interpreting ctx u) v Q := hnext

/-- The first symbol of the text is taken. -/
theorem skip {next : Unit → Script β} {s : Symbol} (hnext : (next ()).Ensures (interpreting ctx u) v Q) :
    (Script.skip >>= next).Ensures (interpreting ctx u) (s :: v) Q := ⟨s, v, rfl, hnext⟩

/-- A symbol of the token that is demanded is taken with its characters. -/
theorem demand {next : Option String → Script β} {s : Symbol} {t : Token} {resume : TokenSet} (hs : s.token = t)
    (hnext : (next (some s.lexeme)).Ensures (interpreting ctx u) v Q) :
    (Script.demand t resume >>= next).Ensures (interpreting ctx u) (s :: v) Q := by
  show Ensures (interpreting ctx u) (if decide (s.token = t) = true then _ else _) _ _
  rw [if_pos (by simp [hs])]
  exact ⟨s, v, rfl, hnext⟩

/-- A symbol of the token that is expected is taken. -/
theorem expect {c d : Script β} {s : Symbol} {t : Token} {resume : TokenSet} (hs : s.token = t)
    (hnext : c.Ensures (interpreting ctx u) v Q) :
    (Script.expect t resume >>= fun found => if found = true then c else d).Ensures (interpreting ctx u) (s :: v) Q := by
  have hdemand : (Script.demand t resume >>= fun lexeme => if lexeme.isSome = true then c else d).Ensures
      (interpreting ctx u) (s :: v) Q := demand hs (by simpa using hnext)
  exact hdemand

/-- The next token is the first one of the text, or of what comes after it. -/
theorem lookahead {next : Token → Script β} {t : Token} (ht : firstToken (v ++ u) = t)
    (hnext : (next t).Ensures (interpreting ctx u) v Q) : (Script.lookahead >>= next).Ensures (interpreting ctx u) v Q := by
  obtain rfl := ht
  exact hnext

/-- A test whose outcome is known. -/
theorem starts {c d : Script β} {p : Production} (b : Bool) (hb : (p.first ctx).contains (firstToken (v ++ u)) = b)
    (hnext : (if b = true then c else d).Ensures (interpreting ctx u) v Q) :
    (Script.starts ctx p >>= fun found => if found = true then c else d).Ensures (interpreting ctx u) v Q := by
  show Ensures (interpreting ctx u) (if (p.first ctx).contains (firstToken (v ++ u)) = true then c else d) _ _
  rw [hb]
  exact hnext

/-- A test for a token is decided by the first one. -/
theorem nextIs {c d : Script β} {t : Token} (b : Bool) (hb : decide (firstToken (v ++ u) = t) = b)
    (hnext : (if b = true then c else d).Ensures (interpreting ctx u) v Q) :
    (Script.nextIs t >>= fun found => if found = true then c else d).Ensures (interpreting ctx u) v Q := by
  show Ensures (interpreting ctx u) (if decide (firstToken (v ++ u) = t) = true then c else d) _ _
  rw [hb]
  exact hnext

/-! ## Nodes -/

variable {R : Node → List Symbol → Prop}

/-- A branch whose parts fit its slots is built. -/
theorem branch {t : NodeType} {slots : List Slot} {ns : List Node} (hshape : t.shape = .branch slots)
    (h : List.Forall₂ (fun slot node => slot.accepts node.type = true) slots ns) (hR : R (.inner t ns) v) :
    (Script.branch t ns).Ensures (interpreting ctx u) v R := by
  unfold Script.branch Ensures
  rw [ofBranch_eq_ok hshape h]
  exact hR

/-- So is a list that has any items, of which none is left out. -/
theorem list {t : NodeType} {members : List NodeType} {ns : List Node} (hshape : t.shape = .list 1 members)
    (hmembers : .empty ∉ members) (hne : ns ≠ []) (h : ∀ node ∈ ns, node.type ∈ members) (hR : R (.inner t ns) v) :
    (Script.list t ns).Ensures (interpreting ctx u) v R := by
  unfold Script.list
  rw [filter_members hmembers h]
  split
  · exact (hne rfl).elim
  · unfold Ensures
    rw [ofList_eq_ok hshape hne h]
    exact hR

/-- The node of a name is built from its parts. -/
theorem named {parts : List String} (hne : parts ≠ []) (hR : R (.named parts.reverse) v) :
    (match parts with
    | [ident] => Script.terminal .ident ident
    | _ => Script.terminals .qualident parts.reverse).Ensures (interpreting ctx u) v R := by
  split
  · exact hR
  · next hmore =>
    have hlength : 2 ≤ parts.length := by
      match parts with
      | [ident] => exact (hmore ident rfl).elim
      | ident :: ident' :: others => simp
    have hcount : NodeType.qualident.allowsCount parts.reverse.length = true := by
      simpa [NodeType.allowsCount, NodeType.countRange, NodeType.shape] using hlength
    have hnamed : Node.named parts.reverse = .leaf .qualident parts.reverse := by
      unfold Node.named
      split
      · next name hname =>
        have hone := congrArg List.length hname
        rw [List.length_reverse, List.length_singleton] at hone
        omega
      · rfl
    unfold Script.terminals
    rw [if_neg (by simpa using hne)]
    unfold Ensures
    simp only [Node.ofValues, NodeType.shape, hcount, if_true]
    rw [← hnamed]
    exact hR

/-! ## Lists -/

end Interprets

section

variable {q : Part} {item : Script q.Meaning} {itemAfter after : TokenSet} {m : List Symbol}

/-- Where a list of items has got to: all of them have been taken, or there is a comma and then some more. -/
def Remains (all : List q.Meaning) (m : List Symbol) (items : List q.Meaning) (v : List Symbol) : Prop :=
  v = m ∧ items.reverse = all ∨ ∃ (comma : Terminal .comma) (others : Phrase (.separated q)),
    v = comma.symbol :: (others.symbols ++ m) ∧ items.reverse ++ others.items = all

/-- One more item of a list. -/
theorem ensures_item (hitem : ∀ e : Phrase q, item.Interprets ctx u itemAfter e.symbols e.meaning)
    (hcomma : itemAfter.contains .comma = true) (hm : itemAfter.contains (firstToken (m ++ u)) = true)
    {all items : List q.Meaning} (e : Phrase (.separated q)) (hall : items.reverse ++ e.items = all) :
    item.Ensures (interpreting ctx u) (e.symbols ++ m) fun a v => Remains all m (a :: items) v := by
  cases e with
  | one only =>
    refine (hitem only m hm).mono ?_
    rintro a v ⟨rfl, rfl⟩
    exact .inl ⟨rfl, by rw [List.reverse_cons]; exact hall⟩
  | more first comma others =>
    rw [Phrase.symbols, List.append_assoc]
    refine (hitem first _ ?_).mono ?_
    · show itemAfter.contains comma.symbol.token = true
      rw [comma.token_eq, hcomma]
    · rintro a v ⟨rfl, rfl⟩
      exact .inr ⟨comma, others, rfl, by rw [List.reverse_cons, List.append_assoc]; exact hall⟩

/-- Items with commas between them. -/
theorem interprets_separated (hitem : ∀ e : Phrase q, item.Interprets ctx u itemAfter e.symbols e.meaning)
    (hcomma : itemAfter.contains .comma = true) (hsub : after.isSubset itemAfter = true)
    (hstop : after.contains .comma = false) (e : Phrase (.separated q)) :
    (separated .comma item).Interprets ctx u after e.symbols e.items := by
  intro m hm
  have hm' := TokenSet.contains_of_isSubset hsub hm
  have hall : ([] : List q.Meaning).reverse ++ e.items = e.items := rfl
  refine ensures_bind.mpr ((ensures_item hitem hcomma hm' e hall).mono fun first v hfirst => ?_)
  refine ⟨Remains e.items m, hfirst, ?_⟩
  rintro items v (⟨rfl, hall⟩ | ⟨comma, others, rfl, hall⟩)
  · refine Interprets.nextIs false (decide_eq_false fun hnext => ?_) ⟨hall, rfl⟩
    rw [hnext, hstop] at hm
    cases hm
  · refine Interprets.nextIs true (decide_eq_true comma.token_eq) (Interprets.skip ?_)
    exact ensures_bind.mpr ((ensures_item hitem hcomma hm' others hall).mono fun a v ha => ⟨ha, trivial⟩)

end

/-- A call takes the symbols of an expression and yields its tree. -/
theorem interprets_call (e : Phrase .expression) :
    (call .expression).Interprets ctx u (Production.expression.follow ctx) e.symbols e.tree :=
  fun m hm => ⟨e, m, rfl, hm, rfl, rfl⟩

/-- Expressions with commas between them are taken one by one. -/
theorem interprets_expressionList (e : Phrase (.separated .expression)) :
    expressionList.Interprets ctx u (Production.expressionList.follow ctx) e.symbols e.items := by
  have hfollow : ∀ c v, (Production.expressionList.follow ⟨c, v⟩).isSubset (Production.expression.follow ⟨c, v⟩) = true ∧
      (Production.expressionList.follow ⟨c, v⟩).contains .comma = false ∧
      (Production.expression.follow ⟨c, v⟩).contains .comma = true := by
    decide
  obtain ⟨hsub, hstop, hcomma⟩ := hfollow ctx.constParameters ctx.variantRecords
  exact fun m hm => interprets_separated (q := .expression) interprets_call hcomma hsub hstop e m hm

/-- Arguments are taken with their parentheses. -/
theorem interprets_actualParameters (e : Phrase .arguments) :
    (actualParameters ctx).Interprets ctx u (Production.actualParameters.follow ctx) e.symbols e.meaning := by
  have hstarts : ∀ c v, (∀ t ∈ [.plus, .minus, .kwNot] ++ Token.ofFactors,
      (Production.expressionList.first ⟨c, v⟩).contains t = true) ∧
      (Production.expressionList.first ⟨c, v⟩).contains .rparen = false ∧
      (Production.expressionList.follow ⟨c, v⟩).contains .rparen = true := by
    decide
  obtain ⟨hfirst, hlast, hfollow⟩ := hstarts ctx.constParameters ctx.variantRecords
  intro m hm
  cases e with
  | noArguments left right =>
    refine Interprets.enter (Interprets.skip (Interprets.starts false ?_ (Interprets.expect right.token_eq ⟨rfl, rfl⟩)))
    show (Production.expressionList.first ctx).contains right.symbol.token = false
    rw [right.token_eq, hlast]
  | arguments left values right =>
    have hright : (Production.expressionList.follow ctx).contains right.symbol.token = true := by rw [right.token_eq, hfollow]
    rw [Phrase.symbols, List.cons_append, List.append_assoc]
    refine Interprets.enter (Interprets.skip (Interprets.starts true (hfirst _ ?_) ?_))
    · rw [List.append_assoc]
      exact values.canStart _
    · refine (interprets_expressionList values).bind hright (Interprets.expect right.token_eq ?_)
      exact Interprets.list rfl (by decide) values.legal.1 values.legal.2 ⟨rfl, rfl⟩

/-! ## Designators -/

/-- A round of the loop over the parts of a name, where a further part comes next. -/
theorem ensures_qualifying_more {names : List String} {dot : Terminal .dot} {name : Terminal .ident} {v : List Symbol}
    {Q : ForInStep (List String) → List Symbol → Prop} (h : Q (.yield (name.symbol.lexeme :: names)) v) :
    (Parses.qualifying names).Ensures (interpreting ctx u) (dot.symbol :: name.symbol :: v) Q := by
  show Ensures (interpreting ctx u) (if decide (dot.symbol.token = .dot ∧ name.symbol.token = .ident) = true then _ else _) _ _
  rw [if_pos (by simp [dot.token_eq, name.token_eq])]
  exact ⟨dot.symbol, _, rfl, name.symbol, v, rfl, h⟩

/-- The last round, where no point comes next. -/
theorem ensures_qualifying_last {names : List String} {v : List Symbol} {Q : ForInStep (List String) → List Symbol → Prop}
    (hv : firstToken (v ++ u) ≠ .dot) (h : Q (.done names) v) :
    (Parses.qualifying names).Ensures (interpreting ctx u) v Q := by
  show Ensures (interpreting ctx u) (if decide (firstToken (v ++ u) = .dot ∧ _) = true then _ else _) _ _
  rw [if_neg (by simp [hv])]
  exact h

/-- A name with all parts that there are. -/
theorem ensures_qualident (head : Qualified) (selectors : Phrase .selectors) {m : List Symbol}
    (hm : firstToken (m ++ u) ≠ .dot) :
    (qualident ctx).Ensures (interpreting ctx u) (head.symbols ++ (selectors.symbols ++ m)) fun n v =>
      ∃ (names : List String) (others : Phrase .selectors), n = .named names ∧ v = others.symbols ++ m ∧
        others.selections.foldl Selection.select (.named names) = .designating head.names selectors.selections := by
  -- Some names have been taken; parts of the name may still be ahead, and selectors of which the first may be fields.
  have hloop : (loop [head.first.symbol.lexeme] Parses.qualifying).Ensures (interpreting ctx u)
      ((head.parts.flatMap fun p => [p.1.symbol, p.2.symbol]) ++ (selectors.symbols ++ m)) fun names v =>
        ∃ others : Phrase .selectors, v = others.symbols ++ m ∧ names ≠ [] ∧
          others.selections.foldl Selection.select (.named names.reverse) =
            .designating head.names selectors.selections := by
    refine ⟨fun names v => ∃ (parts : List (Terminal .dot × Terminal .ident)) (others : Phrase .selectors),
      v = (parts.flatMap fun p => [p.1.symbol, p.2.symbol]) ++ (others.symbols ++ m) ∧ names ≠ [] ∧
        Node.designating (names.reverse ++ parts.map fun p => p.2.symbol.lexeme) others.selections =
          .designating head.names selectors.selections,
      ⟨head.parts, selectors, rfl, by simp, rfl⟩, ?_⟩
    rintro names v ⟨parts, others, rfl, hne, hnames⟩
    cases parts with
    | cons part parts =>
      refine ensures_qualifying_more ⟨⟨parts, others, rfl, by simp, ?_⟩, trivial⟩
      rw [← hnames]
      simp
    | nil =>
      rw [List.map_nil, List.append_nil] at hnames
      cases others with
      | field dot name others =>
        refine ensures_qualifying_more ⟨⟨[], others, rfl, by simp, ?_⟩, trivial⟩
        rw [← hnames]
        simp [Phrase.selections, Phrase.meaning, Node.designating]
      | selected =>
        refine ensures_qualifying_last hm ⟨.selected, rfl, hne, ?_⟩
        rw [← hnames]
        rfl
      | dereferenced caret others =>
        refine ensures_qualifying_last ?_ ⟨.dereferenced caret others, rfl, hne, ?_⟩
        · show caret.symbol.token ≠ .dot
          rw [caret.token_eq]
          decide
        · rw [← hnames]
          rfl
      | indexed left indices right others =>
        refine ensures_qualifying_last ?_ ⟨.indexed left indices right others, rfl, hne, ?_⟩
        · show left.symbol.token ≠ .dot
          rw [left.token_eq]
          decide
        · rw [← hnames]
          rfl
  refine Interprets.enter (Interprets.demand head.first.token_eq (ensures_bind.mpr (hloop.mono ?_)))
  rintro names v ⟨others, rfl, hne, hnames⟩
  exact Interprets.named hne ⟨names.reverse, others, rfl, rfl, hnames⟩

/-- A designator is taken with its selectors, each of which has what comes before it as its part. -/
theorem interprets_designator (e : Phrase .designator) :
    (designator ctx).Interprets ctx u (Production.designator.follow ctx) e.symbols e.meaning := by
  have hfollow : ∀ c v, (Production.designator.follow ⟨c, v⟩).isDisjoint {.dot, .caret, .lbracket} = true ∧
      (Production.expressionList.follow ⟨c, v⟩).contains .rbracket = true := by
    decide
  obtain ⟨hdisjoint, hrbracket⟩ := hfollow ctx.constParameters ctx.variantRecords
  intro m hm
  have hstop := TokenSet.not_contains_of_isDisjoint hdisjoint hm
  simp only [TokenSet.contains_setInsert, TokenSet.contains_singleton, Bool.or_eq_false_iff, decide_eq_false_iff_not] at hstop
  cases e with
  | designator head selectors =>
    rw [Phrase.symbols, List.append_assoc]
    refine Interprets.enter (ensures_bind.mpr ((ensures_qualident head selectors (by tauto)).mono ?_))
    rintro n v ⟨names, others, rfl, rfl, hnames⟩
    refine ⟨fun n v => ∃ others : Phrase .selectors, v = others.symbols ++ m ∧ n.type ∈ NodeType.designators ∧
      others.selections.foldl Selection.select n = .designating head.names selectors.selections,
      ⟨others, rfl, Node.type_selected [] ?_, hnames⟩, ?_⟩
    · have hall : ∀ t ∈ NodeType.typeNames, t ∈ NodeType.designators := by decide
      exact hall _ (Node.type_named names)
    rintro n v ⟨others, rfl, hn, hselected⟩
    cases others with
    | selected =>
      refine Interprets.lookahead rfl ?_
      split
      · next hcaret => exact absurd hcaret (by tauto)
      · next hdot => exact absurd hdot (by tauto)
      · next hbracket => exact absurd hbracket (by tauto)
      · exact ⟨hselected, rfl⟩
    | dereferenced caret others =>
      have htoken : firstToken ((Phrase.dereferenced caret others).symbols ++ m ++ u) = .caret := caret.token_eq
      refine Interprets.lookahead htoken (Interprets.skip (ensures_bind.mpr ?_))
      refine Interprets.branch rfl (.cons (accepts_required.mpr hn) .nil) ?_
      exact ⟨⟨others, rfl, Selection.type_select n .dereference, hselected⟩, trivial⟩
    | field dot name others =>
      have htoken : firstToken ((Phrase.field dot name others).symbols ++ m ++ u) = .dot := dot.token_eq
      refine Interprets.lookahead htoken (Interprets.skip (Interprets.demand name.token_eq (ensures_bind.mpr ?_)))
      refine ensures_bind.mpr (Interprets.branch rfl (.cons (accepts_required.mpr hn) (.cons (by rfl) .nil)) ?_)
      exact ⟨⟨others, rfl, Selection.type_select n (.field _), hselected⟩, trivial⟩
    | indexed left indices right others =>
      have htoken : firstToken ((Phrase.indexed left indices right others).symbols ++ m ++ u) = .lbracket := left.token_eq
      have hright : (Production.expressionList.follow ctx).contains right.symbol.token = true := by
        rw [right.token_eq, hrbracket]
      refine Interprets.lookahead htoken ?_
      rw [Phrase.symbols, List.cons_append, List.append_assoc]
      refine Interprets.skip ((interprets_expressionList indices).bind hright (Interprets.expect right.token_eq ?_))
      refine ensures_bind.mpr (Interprets.list rfl (by decide) indices.legal.1 indices.legal.2 ?_)
      refine ensures_bind.mpr (Interprets.branch rfl (.cons (accepts_required.mpr hn) (.cons (by rfl) .nil)) ?_)
      exact ⟨⟨others, rfl, Selection.type_select n (.index _), hselected⟩, trivial⟩

/-! ## Factors -/

/-- An element of a set is taken with its second bound, if it has one. -/
theorem interprets_element (e : Phrase .element) :
    element.Interprets ctx u (Production.element.follow ctx) e.symbols e.meaning := by
  have hfollow : ∀ c v, (Production.element.follow ⟨c, v⟩).isSubset (Production.expression.follow ⟨c, v⟩) = true ∧
      (Production.element.follow ⟨c, v⟩).contains .dotDot = false ∧
      (Production.expression.follow ⟨c, v⟩).contains .dotDot = true := by
    decide
  obtain ⟨hsub, hstop, hdots⟩ := hfollow ctx.constParameters ctx.variantRecords
  intro m hm
  have hm' := TokenSet.contains_of_isSubset hsub hm
  cases e with
  | single value =>
    refine Interprets.enter ((interprets_call value).bind hm' (Interprets.nextIs false (decide_eq_false ?_) ⟨rfl, rfl⟩))
    intro hnext
    rw [hnext, hstop] at hm
    cases hm
  | range low dots high =>
    rw [Phrase.symbols, List.append_assoc]
    have hdots' : (Production.expression.follow ctx).contains dots.symbol.token = true := by rw [dots.token_eq, hdots]
    refine Interprets.enter ((interprets_call low).bind hdots' ?_)
    refine Interprets.nextIs true (decide_eq_true dots.token_eq) (Interprets.skip ((interprets_call high).bind hm' ?_))
    have hhigh := accepts_expressionSlot.mpr high.legal
    exact Interprets.branch rfl (.cons (accepts_expressionSlot.mpr low.legal) (.cons hhigh .nil))
      ⟨rfl, rfl⟩

/-- Elements with commas between them are taken one by one. -/
theorem interprets_elements (e : Phrase (.separated .element)) :
    (separated .comma element).Interprets ctx u {.rbrace} e.symbols e.items := by
  have hfollow : ∀ c v, ({.rbrace} : TokenSet).isSubset (Production.element.follow ⟨c, v⟩) = true ∧
      (Production.element.follow ⟨c, v⟩).contains .comma = true := by
    decide
  obtain ⟨hsub, hcomma⟩ := hfollow ctx.constParameters ctx.variantRecords
  exact fun m hm => interprets_separated (q := .element) interprets_element hcomma hsub (by decide) e m hm

/-- A set is taken with its braces. -/
theorem interprets_setValue (e : Phrase .setValue) :
    (setValue ctx).Interprets ctx u (Production.setValue.follow ctx) e.symbols e.meaning := by
  have hstarts : ∀ c v, (∀ t ∈ [.plus, .minus, .kwNot] ++ Token.ofFactors,
      (Production.element.first ⟨c, v⟩).contains t = true) ∧
      (Production.element.first ⟨c, v⟩).contains .rbrace = false := by
    decide
  obtain ⟨hfirst, hlast⟩ := hstarts ctx.constParameters ctx.variantRecords
  intro m hm
  cases e with
  | noElements left right =>
    refine Interprets.enter (Interprets.skip (Interprets.starts false ?_ (Interprets.expect right.token_eq ⟨rfl, rfl⟩)))
    show (Production.element.first ctx).contains right.symbol.token = false
    rw [right.token_eq, hlast]
  | elements left values right =>
    have hright : ({.rbrace} : TokenSet).contains right.symbol.token = true := by simp [right.token_eq]
    rw [Phrase.symbols, List.cons_append, List.append_assoc]
    refine Interprets.enter (Interprets.skip (Interprets.starts true (hfirst _ ?_) ?_))
    · rw [List.append_assoc]
      exact values.canStart _
    · refine (interprets_elements values).bind hright (Interprets.expect right.token_eq ?_)
      exact Interprets.list rfl (by decide) values.legal.1 values.legal.2 ⟨rfl, rfl⟩

/-- The node of a set value. -/
theorem ensures_setNode (value : Phrase .setValue) {type : Node} (htype : type = .empty ∨ type.type ∈ NodeType.typeNames)
    {m : List Symbol} :
    (branch .setValue [value.meaning, type]).Ensures (interpreting ctx u) m fun n v =>
      n = .inner .setValue [value.meaning, type] ∧ v = m := by
  have hvalue : Node.type value.meaning = .empty ∨ Node.type value.meaning = .elementList := value.legal
  refine Interprets.branch rfl (.cons (accepts_optional.mpr ?_) (.cons (accepts_optional.mpr ?_) .nil)) ⟨rfl, rfl⟩
  · simpa using hvalue
  · exact htype.imp_left fun h => by rw [h]; rfl

/-- A factor that starts with an identifier is a designator, perhaps with arguments or elements after it. -/
theorem ensures_factor_of_ident {v : List Symbol} {Q : Node → List Symbol → Prop} (hv : firstToken (v ++ u) = .ident)
    (h : (designatorOrFuncCall ctx).Ensures (interpreting ctx u) v Q) : (factor ctx).Ensures (interpreting ctx u) v Q := by
  have hfirst : ∀ c v, (Production.setValue.first ⟨c, v⟩).contains .ident = false ∧
      (Production.designatorOrFuncCall.first ⟨c, v⟩).contains .ident = true := by
    decide
  obtain ⟨hset, hdesignator⟩ := hfirst ctx.constParameters ctx.variantRecords
  exact Interprets.lookahead hv <| Interprets.starts false (by rw [hv, hset]) (Interprets.starts true (by rw [hv, hdesignator]) h)

/-- A factor is taken by the alternative that its first symbol tells. -/
theorem interprets_factor (e : Phrase .factor) :
    (factor ctx).Interprets ctx u (Production.factor.follow ctx) e.symbols e.meaning := by
  have hfollow : ∀ c v, (Production.factor.follow ⟨c, v⟩).isSubset (Production.designator.follow ⟨c, v⟩) = true ∧
      (Production.factor.follow ⟨c, v⟩).isDisjoint {.lparen, .lbrace} = true ∧
      ({.lparen, .lbrace} : TokenSet).isSubset (Production.designator.follow ⟨c, v⟩) = true ∧
      (Production.expression.follow ⟨c, v⟩).contains .rparen = true := by
    decide
  obtain ⟨hsub, hdisjoint, hopen, hrparen⟩ := hfollow ctx.constParameters ctx.variantRecords
  have hset : Production.setValue.first ctx = {.lbrace} := rfl
  have harguments : Production.actualParameters.first ctx = {.lparen} := rfl
  intro m hm
  have hm' := TokenSet.contains_of_isSubset hsub hm
  have hstop := TokenSet.not_contains_of_isDisjoint hdisjoint hm
  simp only [TokenSet.contains_setInsert, TokenSet.contains_singleton] at hstop
  cases e with
  | literal value =>
    refine Interprets.lookahead (t := value.symbol.token) rfl ?_
    rw [literal?_eq_some_iff.mpr value.of_kind]
    refine ⟨value.symbol, m, rfl, ?_⟩
    show Ensures (interpreting ctx u) (act (.build (Node.ofValue value.type value.symbol.lexeme))) _ _
    rw [Node.ofValue, value.of_kind.legal.1]
    exact ⟨rfl, rfl⟩
  | set value =>
    have hbrace : firstToken (value.symbols ++ m ++ u) = .lbrace := by
      rw [List.append_assoc]
      exact value.canStart _
    refine Interprets.lookahead hbrace (Interprets.starts true (by rw [Phrase.symbols, hbrace, hset]; simp) ?_)
    exact (interprets_setValue value).bind hm (ensures_setNode value (.inl rfl))
  | designated only =>
    refine ensures_factor_of_ident (by rw [Phrase.symbols, List.append_assoc]; exact only.canStart _) ?_
    refine Interprets.enter ((interprets_designator only).bind hm' ?_)
    refine Interprets.starts false (by rw [hset]; simp_all) (Interprets.starts false (by rw [harguments]; simp_all) ⟨rfl, rfl⟩)
  | typedSet type value =>
    have hbrace : firstToken (value.symbols ++ m ++ u) = .lbrace := by
      rw [List.append_assoc]
      exact value.canStart _
    have hhead : (Phrase.designator type .selected).symbols = type.symbols := List.append_nil _
    have hnext : (Production.designator.follow ctx).contains (firstToken (value.symbols ++ m ++ u)) = true :=
      TokenSet.contains_of_isSubset hopen (by rw [hbrace]; simp)
    rw [Phrase.symbols, ← hhead, List.append_assoc]
    refine ensures_factor_of_ident (by rw [List.append_assoc]; exact Phrase.canStart (.designator type .selected) _) ?_
    refine Interprets.enter ((interprets_designator (.designator type .selected)).bind hnext ?_)
    refine Interprets.starts true (by rw [hbrace, hset]; simp) ?_
    exact (interprets_setValue value).bind hm (ensures_setNode value (.inr (Node.type_named _)))
  | called head values =>
    have hparen : firstToken (values.symbols ++ m ++ u) = .lparen := by
      rw [List.append_assoc]
      exact values.canStart _
    have hnext : (Production.designator.follow ctx).contains (firstToken (values.symbols ++ m ++ u)) = true :=
      TokenSet.contains_of_isSubset hopen (by rw [hparen]; simp)
    have hvalues : Node.type values.meaning = .empty ∨ Node.type values.meaning = .arguments := values.legal
    rw [Phrase.symbols, List.append_assoc]
    refine ensures_factor_of_ident (by rw [List.append_assoc]; exact head.canStart _) ?_
    refine Interprets.enter ((interprets_designator head).bind hnext ?_)
    refine Interprets.starts false (by rw [hparen, hset]; simp) (Interprets.starts true (by rw [hparen, harguments]; simp) ?_)
    refine (interprets_actualParameters values).bind hm ?_
    exact Interprets.branch rfl (.cons (accepts_required.mpr head.legal) (.cons (by simpa using hvalues) .nil)) ⟨rfl, rfl⟩
  | parenthesized left inner right =>
    have hfirst : ∀ c v, (Production.setValue.first ⟨c, v⟩).contains .lparen = false ∧
        (Production.designatorOrFuncCall.first ⟨c, v⟩).contains .lparen = false := by
      decide
    obtain ⟨hnoset, hnodesignator⟩ := hfirst ctx.constParameters ctx.variantRecords
    have hright : (Production.expression.follow ctx).contains right.symbol.token = true := by rw [right.token_eq, hrparen]
    have hleft : firstToken ((Phrase.parenthesized left inner right).symbols ++ m ++ u) = .lparen := left.token_eq
    rw [Phrase.symbols, List.cons_append, List.append_assoc] at hleft ⊢
    refine Interprets.lookahead hleft ?_
    refine Interprets.starts false (by rw [hleft, hnoset]) (Interprets.starts false (by rw [hleft, hnodesignator]) ?_)
    refine Interprets.nextIs true (decide_eq_true hleft) (Interprets.skip ((interprets_call inner).bind hright ?_))
    exact Interprets.expect right.token_eq ⟨rfl, rfl⟩

/-! ## Sums and products -/

/-- A negation is taken before what it negates. -/
theorem interprets_simpleTerm (e : Phrase (.operand .product)) :
    (simpleTerm ctx).Interprets ctx u (Production.simpleTerm.follow ctx) e.symbols e.meaning := by
  have hsame : Production.simpleTerm.follow ctx = Production.factor.follow ctx := rfl
  intro m hm
  rw [hsame] at hm
  cases e with
  | plain factor =>
    have hstart : firstToken (factor.symbols ++ m ++ u) ∈ Token.ofFactors := by
      rw [List.append_assoc]
      exact factor.canStart _
    have hother : firstToken (factor.symbols ++ m ++ u) ≠ .kwNot := fun hnot => by
      rw [hnot] at hstart
      exact absurd hstart (by decide)
    exact Interprets.enter (Interprets.nextIs false (decide_eq_false hother) (interprets_factor factor m hm))
  | complement sign factor =>
    refine Interprets.enter (Interprets.nextIs true (decide_eq_true sign.token_eq) (Interprets.skip ?_))
    refine (interprets_factor factor).bind hm (Interprets.branch rfl ?_ ⟨rfl, rfl⟩)
    exact .cons (accepts_expressionSlot.mpr factor.legal) .nil

section

variable {rank : Rank} {operand : Script Node} {operandAfter after : TokenSet} {m : List Symbol}

/-- What comes after an operand: an operator, or what comes after all of them. -/
theorem contains_after_operand (others : Phrase (.further rank))
    (hnext : ∀ t, (joining? rank t).isSome = true → operandAfter.contains t = true)
    (hsub : after.isSubset operandAfter = true) (hm : after.contains (firstToken (m ++ u)) = true) :
    operandAfter.contains (firstToken (others.symbols ++ m ++ u)) = true := by
  cases others with
  | last => exact TokenSet.contains_of_isSubset hsub hm
  | joined operator operand others =>
    refine hnext operator.symbol.token ?_
    rw [joining?_eq_some_iff.mpr operator.of_kind]
    rfl

/-- Operands joined to a first one are folded to the left. -/
theorem ensures_leftAssociative (others : Phrase (.further rank))
    (hoperand : ∀ e : Phrase (.operand rank), operand.Interprets ctx u operandAfter e.symbols e.meaning)
    (hnext : ∀ t, (joining? rank t).isSome = true → operandAfter.contains t = true)
    (hsub : after.isSubset operandAfter = true)
    (hstop : ∀ t, after.contains t = true → joining? rank t = none) {first : Node}
    (hfirst : first.type ∈ NodeType.expressions) (hm : after.contains (firstToken (m ++ u)) = true) :
    (leftAssociative (joining? rank) operand first).Ensures (interpreting ctx u) (others.symbols ++ m) fun n v =>
      n = first.joined others.links ∧ v = m := by
  refine ⟨fun left v => ∃ more : Phrase (.further rank), v = more.symbols ++ m ∧ left.type ∈ NodeType.expressions ∧
    left.joined more.links = first.joined others.links, ⟨others, rfl, hfirst, rfl⟩, ?_⟩
  rintro left v ⟨more, rfl, hleft, hjoined⟩
  refine Interprets.lookahead rfl ?_
  cases more with
  | last =>
    have hnone : joining? rank (firstToken ((Phrase.last : Phrase (.further rank)).symbols ++ m ++ u)) = none := hstop _ hm
    rw [hnone]
    exact ⟨hjoined, rfl⟩
  | joined operator right more =>
    have hoperator : joining? rank (firstToken ((Phrase.joined operator right more).symbols ++ m ++ u)) = some operator.type :=
      joining?_eq_some_iff.mpr operator.of_kind
    obtain ⟨hshape, hmem⟩ := operator.of_kind.legal
    rw [hoperator, Phrase.symbols, List.cons_append, List.append_assoc]
    refine Interprets.skip ((hoperand right).bind (contains_after_operand more hnext hsub hm) ?_)
    have hright := accepts_expressionSlot.mpr right.legal
    refine Interprets.branch hshape (.cons (accepts_expressionSlot.mpr hleft) (.cons hright .nil)) ?_
    exact ⟨⟨more, rfl, hmem, hjoined⟩, trivial⟩

end

/-- Factors are taken as far as there are operators, and nest to the left. -/
theorem interprets_term (e : Phrase (.operand .sum)) :
    (term ctx).Interprets ctx u (Production.term.follow ctx) e.symbols e.meaning := by
  have hfollow : ∀ c v, (∀ t ∈ Token.all, (multiplying? t).isSome = true →
        (Production.simpleTerm.follow ⟨c, v⟩).contains t = true) ∧
      (Production.term.follow ⟨c, v⟩).isSubset (Production.simpleTerm.follow ⟨c, v⟩) = true ∧
      ∀ t ∈ Token.all, (Production.term.follow ⟨c, v⟩).contains t = true → multiplying? t = none := by
    decide
  obtain ⟨hnext, hsub, hstop⟩ := hfollow ctx.constParameters ctx.variantRecords
  intro m hm
  cases e with
  | term first others =>
    rw [Phrase.symbols, List.append_assoc]
    refine Interprets.enter ((interprets_simpleTerm first).bind
      (contains_after_operand others (fun t => hnext t (Token.mem_all t)) hsub hm) ?_)
    exact ensures_leftAssociative others interprets_simpleTerm (fun t => hnext t (Token.mem_all t)) hsub
      (fun t => hstop t (Token.mem_all t)) first.legal hm

/-- A sum after its first operand. -/
theorem ensures_sum (first : Node) (hfirst : first.type ∈ NodeType.expressions) (others : Phrase (.further .sum))
    {m : List Symbol} (hm : (Production.simpleExpression.follow ctx).contains (firstToken (m ++ u)) = true) :
    (Production.term.follow ctx).contains (firstToken (others.symbols ++ m ++ u)) = true ∧
    (leftAssociative adding? (term ctx) first).Ensures (interpreting ctx u) (others.symbols ++ m) fun n v =>
      n = first.joined others.links ∧ v = m := by
  have hfollow : ∀ c v, (∀ t ∈ Token.all, (adding? t).isSome = true → (Production.term.follow ⟨c, v⟩).contains t = true) ∧
      (Production.simpleExpression.follow ⟨c, v⟩).isSubset (Production.term.follow ⟨c, v⟩) = true ∧
      ∀ t ∈ Token.all, (Production.simpleExpression.follow ⟨c, v⟩).contains t = true → adding? t = none := by
    decide
  obtain ⟨hnext, hsub, hstop⟩ := hfollow ctx.constParameters ctx.variantRecords
  exact ⟨contains_after_operand others (fun t => hnext t (Token.mem_all t)) hsub hm,
    ensures_leftAssociative others interprets_term (fun t => hnext t (Token.mem_all t)) hsub
      (fun t => hstop t (Token.mem_all t)) hfirst hm⟩

/-- So are terms, and a sign is taken before the first one only. -/
theorem interprets_simpleExpression (e : Phrase .simpleExpression) :
    (simpleExpression ctx).Interprets ctx u (Production.simpleExpression.follow ctx) e.symbols e.meaning := by
  intro m hm
  cases e with
  | unsigned first others =>
    obtain ⟨hnext, hsum⟩ := ensures_sum first.meaning first.legal others hm
    have hstart : firstToken (first.symbols ++ (others.symbols ++ m) ++ u) ∈ .kwNot :: Token.ofFactors := by
      rw [List.append_assoc]
      exact first.canStart _
    have hsigned : (signedTerm ctx).Ensures (interpreting ctx u) (first.symbols ++ (others.symbols ++ m)) fun n v =>
        n = first.meaning ∧ v = others.symbols ++ m := by
      refine Interprets.lookahead rfl ?_
      split
      · next hplus => exact absurd (hplus ▸ hstart) (by decide)
      · next hminus => exact absurd (hminus ▸ hstart) (by decide)
      · exact interprets_term first _ hnext
    rw [Phrase.symbols, List.append_assoc]
    refine Interprets.enter (ensures_bind.mpr (hsigned.mono ?_))
    rintro n v ⟨rfl, rfl⟩
    exact hsum
  | positive sign first others =>
    obtain ⟨hnext, hsum⟩ := ensures_sum first.meaning first.legal others hm
    rw [Phrase.symbols, List.cons_append, List.append_assoc]
    refine Interprets.enter (ensures_bind.mpr ?_)
    refine Interprets.lookahead (show firstToken _ = _ from sign.token_eq) ?_
    exact Interprets.skip ((interprets_term first).bind hnext hsum)
  | negative sign first others =>
    obtain ⟨hnext, hsum⟩ := ensures_sum (.inner .negation [first.meaning]) (by show NodeType.negation ∈ _; decide) others hm
    rw [Phrase.symbols, List.cons_append, List.append_assoc]
    refine Interprets.enter (ensures_bind.mpr ?_)
    refine Interprets.lookahead (show firstToken _ = _ from sign.token_eq) ?_
    refine Interprets.skip ((interprets_term first).bind hnext ?_)
    exact Interprets.branch rfl (.cons (accepts_expressionSlot.mpr first.legal) .nil) hsum

/-- A relation is taken with both of its sides, which the tree has as parts. -/
theorem interprets_expression (e : Phrase .expression) :
    (expression ctx).Interprets ctx u (Production.expression.follow ctx) e.symbols e.tree := by
  have hfollow : ∀ c v, (∀ t ∈ Token.all, (relation? t).isSome = true →
        (Production.simpleExpression.follow ⟨c, v⟩).contains t = true) ∧
      (Production.expression.follow ⟨c, v⟩).isSubset (Production.simpleExpression.follow ⟨c, v⟩) = true ∧
      ∀ t ∈ Token.all, (Production.expression.follow ⟨c, v⟩).contains t = true → relation? t = none := by
    decide
  obtain ⟨hnext, hsub, hstop⟩ := hfollow ctx.constParameters ctx.variantRecords
  intro m hm
  have hm' := TokenSet.contains_of_isSubset hsub hm
  cases e with
  | simple operand =>
    refine Interprets.enter ((interprets_simpleExpression operand).bind hm' ?_)
    refine Interprets.lookahead rfl ?_
    rw [hstop _ (Token.mem_all _) hm]
    exact ⟨rfl, rfl⟩
  | relation left operator right =>
    have hoperator : (Production.simpleExpression.follow ctx).contains operator.symbol.token = true :=
      hnext _ (Token.mem_all _) (by rw [relation?_eq_some_iff.mpr operator.of_kind]; rfl)
    rw [Phrase.symbols, List.append_assoc]
    refine Interprets.enter ((interprets_simpleExpression left).bind hoperator ?_)
    refine Interprets.lookahead (t := operator.symbol.token) rfl ?_
    rw [relation?_eq_some_iff.mpr operator.of_kind]
    refine Interprets.skip ((interprets_simpleExpression right).bind hm' ?_)
    exact Interprets.branch operator.of_kind.legal.1
      (.cons (accepts_expressionSlot.mpr left.legal) (.cons (accepts_expressionSlot.mpr right.legal) .nil)) ⟨rfl, rfl⟩

end Script

end Modula
