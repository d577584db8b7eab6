import Modula.Parser.Module
import Modula.Proofs.Parser.Terminated

/-!
# Expressions and the grammar

The scripts for names, designators and expressions parse the rows of their productions. Only at a designator one token
is not enough: a point and an identifier may belong to the qualified identifier at its start or be the first selector,
and the parser takes as many of them as it can for the qualified identifier.
-/

set_option autoImplicit false

namespace Modula.Script.Parses

variable {g : Grammar} {x : String} {known : List Symbol → Prop}

/-! ## Names -/

/-- An identifier that is expected is read. -/
theorem ident {resume : TokenSet} :
    Parses g x known (Script.expectIdent resume) [.token .ident] fun _ => True :=
  have h : Parses g x known (Script.expectIdent resume >>= fun lexeme => Pure.pure lexeme) [.token .ident] fun _ => True :=
    expectIdent fun _ => pure trivial
  ⟨h.sound, h.complete⟩

/-- Identifiers are read with commas between them. -/
theorem identList : Parses g x known (Script.identList g.context) [.call .identList] fun _ => True := by
  refine production (decides_rules g .identList rfl nofun) fun y => enter ?_
  refine ending (separated (by simp) ident ident) fun idents _ => ?_
  exact terminals (by simp)

/-- So are expressions. -/
theorem expressionList : Parses g x known Script.expressionList [.call .expressionList] fun _ => True := by
  refine production (decides_rules g .expressionList rfl nofun) fun y => enter ?_
  exact separated (by simp) (call fun _ _ => trivial) (call fun _ _ => trivial)

/-- Arguments are read between parentheses, if there are any. -/
theorem actualParameters :
    Parses g x (Starts g .actualParameters) (Script.actualParameters g.context) [.call .actualParameters] fun _ => True := by
  refine production (decides_rules g .actualParameters rfl nofun) fun y => enter ?_
  refine skip (fun v => eq_of_starts rfl) (by simp) ?_
  refine optionalStarts (S := fun _ => True) rfl rfl trivial (fun arguments _ => ?_) fun hrest => part expressionList hrest
  exact expect (by simp) (list (by simp))

/-! ## Designators -/

/-- Whether the symbols ahead start as a further part of a qualified identifier does. -/
def Qualifies (v : List Symbol) : Prop := firstToken v = .dot ∧ firstToken v.tail = .ident

/-- Where a qualified identifier goes on, a point and an identifier are taken. -/
theorem takes_part {es : List Ebnf} {v u : List Symbol} :
    Takes g.rules x (.token .dot :: .token .ident :: es) v u ↔ Qualifies v ∧ Takes g.rules x es v.tail.tail u := by
  unfold Qualifies
  constructor
  · intro h
    obtain ⟨s, v, rfl, hs, h⟩ := takes_token.mp h
    obtain ⟨s', v, rfl, hs', h⟩ := takes_token.mp h
    exact ⟨⟨hs, hs'⟩, h⟩
  · rintro ⟨⟨hs, hs'⟩, h⟩
    match v with
    | [] => cases hs
    | [s] => cases hs'
    | s :: s' :: v => exact takes_token.mpr ⟨s, _, rfl, hs, takes_token.mpr ⟨s', v, rfl, hs', h⟩⟩

/-- A round of the loop over the parts of a qualified identifier. -/
def qualifying (parts : List String) : Script (ForInStep (List String)) := do
  unless ← act .qualifies do return .done parts
  Script.skip
  return .yield ((← Script.accept) :: parts)

/-- One round over a qualified identifier takes a part if there is one, and stops otherwise. -/
theorem ensures_qualifying {A : Abstraction (List Symbol)} {m : Prop}
    (hA : ∀ {β : Type} (action : Action β) (v : List Symbol) (Q : β → List Symbol → Prop),
      action.shows g m v Q → A.act action v Q)
    {parts : List String} {v : List Symbol} {Q : ForInStep (List String) → List Symbol → Prop}
    (hmore : Qualifies v → ∀ part, Q (.yield (part :: parts)) v.tail.tail)
    (hstop : m ∨ ¬Qualifies v → Q (.done parts) v) : (qualifying parts).Ensures A v Q := by
  refine hA .qualifies v _ ⟨?_, fun hm => hstop (.inl hm)⟩
  show Ensures A (if decide (firstToken v = .dot ∧ firstToken v.tail = .ident) = true then _ else _) _ _
  by_cases hv : firstToken v = .dot ∧ firstToken v.tail = .ident
  · rw [if_pos (by simp [hv])]
    refine hA .accept v _ fun _ _ => ?_
    exact hA .accept v.tail _ fun part _ => hmore hv part
  · rw [if_neg (by simp [hv])]
    exact hstop (.inr hv)

/-- What a qualified identifier yields. -/
def NamesType (n : Node) : Prop := n.type = .empty ∨ n.type = .ident ∨ n.type = .qualident

/-- The node of a qualified identifier is built from its parts. -/
theorem parts_qualident {parts : List String} : Parses g x known
    (match parts with
    | [ident] => Script.terminal .ident ident
    | _ => Script.terminals .qualident parts.reverse) [] NamesType := by
  split
  · exact (terminal_hasType (by simp)).mono fun n hn => hn.imp_right .inl
  · exact (terminals_hasType (by simp)).mono fun n hn => hn.imp_right .inr

/-- Whatever a qualified identifier has taken it may take by its row. -/
theorem sounds_qualident {v : List Symbol} : (Script.qualident g.context).Ensures (sounding g) v fun n u =>
    Takes g.rules x [.call .qualident] v u ∧ NamesType n := by
  by_cases hfirst : firstToken v = .ident
  · cases v with
    | nil => cases hfirst
    | cons s v =>
      refine ensures_demand shows_sounding hfirst ?_
      have hloop : (Script.loop [s.lexeme] qualifying).Ensures (sounding g) v fun _ u =>
          Takes g.rules x [.many [.token .dot, .token .ident]] v u ∧ True := by
        refine ensures_loop_sounding (I := fun _ => True) (R := fun _ => True) trivial fun parts w _ => ?_
        refine ensures_qualifying (fun _ _ _ h => h) (fun hqualifies part => ?_) fun _ => ?_
        · exact ⟨takes_part.mpr ⟨hqualifies, takes_nil.mpr rfl⟩, trivial⟩
        · exact ⟨takes_nil.mpr rfl, trivial⟩
      refine ensures_bind.mpr (hloop.mono ?_)
      rintro parts u ⟨hu, -⟩
      refine ((parts_qualident (x := x)).empty_sound u).mono ?_
      rintro n u ⟨rfl, hn⟩
      exact ⟨takes_call.mpr ⟨u, ⟨x, takes_token.mpr ⟨s, v, rfl, hfirst, hu⟩⟩, takes_nil.mpr rfl⟩, hn⟩
  · exact ensures_demand_missing hfirst

/-- A qualified identifier takes all parts that there are. -/
theorem completes_qualident {v u : List Symbol} (hu : Takes g.rules x [.call .qualident] v u) (hstop : ¬Qualifies u) :
    (Script.qualident g.context).Ensures (completing g) v fun n w => w = u ∧ NamesType n := by
  obtain ⟨m, ⟨y, hm⟩, hnil⟩ := takes_call.mp hu
  obtain rfl := takes_nil.mp hnil
  obtain ⟨s, v, rfl, hs, hparts⟩ := takes_token.mp hm
  refine ensures_demand shows_completing hs ?_
  refine ensures_bind.mpr (Ensures.mono ?_ (ensures_loop_completing (I := fun _ => True) (R := fun _ => True) trivial
    hparts (fun parts w m _ hw hm => ?_) fun parts w _ hw => ?_))
  · rintro parts w ⟨rfl, -⟩
    exact (parts_qualident (x := x)).empty_complete w
  · obtain ⟨hqualifies, hw⟩ := takes_part.mp hw
    obtain rfl := takes_nil.mp hw
    exact ensures_qualifying (fun _ _ _ h => h) (fun _ part => ⟨rfl, trivial⟩) fun hno => (hno.resolve_left id) hqualifies
  · obtain rfl := takes_nil.mp hw
    exact ensures_qualifying (fun _ _ _ h => h) (fun hqualifies part => hstop hqualifies) fun _ => ⟨rfl, trivial⟩

/-- A qualified identifier reads its row. -/
theorem qualident : Parses g x known (Script.qualident g.context) [.call .qualident] NamesType := by
  refine ⟨fun v _ => sounds_qualident, fun after v u hdecides _ hu hafter => completes_qualident hu fun hqualifies => ?_⟩
  rw [decides_call] at hdecides
  have hends := TokenSet.contains_of_isSubset hdecides hafter
  rw [hqualifies.1, Production.ends, TokenSet.contains_erase] at hends
  simp at hends

/-! ## Designators -/

/-- The first of the selectors of a designator, if it starts as a part of a qualified identifier does. -/
theorem takes_selectors {v u : List Symbol} (hv : Qualifies v) (hu : ¬Qualifies u)
    (h : Takes g.rules x [.many [.call .selector]] v u) :
    Takes g.rules x [.many [.call .selector]] v.tail.tail u := by
  obtain hnil | hmore := takes_many.mp h
  · exact (hu (takes_nil.mp hnil ▸ hv)).elim
  · obtain ⟨k, ⟨y, hk⟩, hrest⟩ := takes_call.mp hmore
    have hrow : g.rules .selector = [.alt [.token .caret] [.alt [.token .dot, .token .ident]
      [.token .lbracket, .call .expressionList, .token .rbracket]]] := rfl
    rw [hrow] at hk
    obtain hcaret | hk := takes_alt.mp hk
    · obtain ⟨s, v, rfl, hs, -⟩ := takes_token.mp hcaret
      have hdot : s.token = .dot := hv.1
      rw [hs] at hdot
      cases hdot
    · obtain hfield | hindex := takes_alt.mp hk
      · obtain ⟨-, hk⟩ := takes_part.mp hfield
        rwa [takes_nil.mp hk]
      · obtain ⟨s, v, rfl, hs, -⟩ := takes_token.mp hindex
        have hdot : s.token = .dot := hv.1
        rw [hs] at hdot
        cases hdot

/-- A qualified identifier and the selectors after it can be taken such that the former has all parts that there are. -/
theorem takes_parts {y : String} {v k u : List Symbol} (hu : ¬Qualifies u)
    (hparts : Takes g.rules x [.many [.token .dot, .token .ident]] v k)
    (hselectors : Takes g.rules y [.many [.call .selector]] k u) :
    ∃ m, Takes g.rules x [.many [.token .dot, .token .ident]] v m ∧ ¬Qualifies m ∧
      Takes g.rules y [.many [.call .selector]] m u := by
  generalize hn : v.length = n
  induction n using Nat.strongRecOn generalizing v k with
  | ind n ih =>
    have hlen : Qualifies v → v.tail.tail.length < n := by
      intro hv
      cases v with
      | nil => cases hv.1
      | cons s v =>
        rw [← hn, List.tail_cons, List.length_tail, List.length_cons]
        omega
    obtain hnil | hmore := takes_many.mp hparts
    · obtain rfl := takes_nil.mp hnil
      by_cases hv : Qualifies v
      · have hrest := takes_selectors hv hu hselectors
        obtain ⟨m, hm, hstop, hselectors⟩ := ih _ (hlen hv) (takes_many.mpr (.inl (takes_nil.mpr rfl))) hrest rfl
        exact ⟨m, takes_many.mpr (.inr (takes_part.mpr ⟨hv, hm⟩)), hstop, hselectors⟩
      · exact ⟨v, hparts, hv, hselectors⟩
    · obtain ⟨hv, hparts⟩ := takes_part.mp hmore
      obtain ⟨m, hm, hstop, hselectors⟩ := ih _ (hlen hv) hparts hselectors rfl
      exact ⟨m, takes_many.mpr (.inr (takes_part.mpr ⟨hv, hm⟩)), hstop, hselectors⟩

/-- Building the node of an identifier reads nothing. -/
theorem identNode_some {lexeme : String} : Parses g x known (identNode (some lexeme)) [] fun _ => True :=
  terminal (by simp)

/-- A designator is a qualified identifier with a loop over selectors. -/
theorem designator_eq (g : Grammar) : ∃ round, Script.designator g.context = (Script.enter .designator >>= fun _ =>
    Script.qualident g.context >>= fun first => Script.loop first round) ∧
      ∀ x selected, Turns g x (round selected) [.call .selector] (fun _ => True) fun _ => True := by
  refine ⟨_, rfl, fun x selected => Turns.lookahead rfl (fun t ht => ?_) fun t ht => ⟨selected, trivial, ?_⟩⟩
  · refine production (decides_rules g .selector rfl nofun) fun y => ?_
    split
    · refine pickNext (a := [.token .caret]) rfl (by simp) (skip (fun v hv => hv) (by simp) ?_)
      exact ending (branch (by simp)) fun _ _ => pure trivial
    · refine pickNext (a := [.token .dot, .token .ident]) rfl (by simp) ?_
      refine skip (fun v hv => hv) (by simp) (expectIdent fun lexeme => ?_)
      refine ending identNode_some fun field _ => ending (branch (by simp)) fun _ _ => pure trivial
    · refine pickNext (a := [.token .lbracket, .call .expressionList, .token .rbracket]) rfl (by simp) ?_
      refine skip (fun v hv => hv) (by simp) (part expressionList fun indices _ => ?_)
      refine expect (by simp) (ending (list (by simp)) fun indices _ => ?_)
      exact ending (branch (by simp)) fun _ _ => pure trivial
    · simp_all [Ebnf.first, Production.first]
  · simp [Ebnf.first, Production.first] at ht
    split <;> simp_all

/-- One token decides how the selectors of a designator go on. -/
theorem decides_selectors (ctx : Context) :
    decides ctx [.many [.call .selector]] (Production.designator.ends ctx) = true := by
  obtain ⟨c, v⟩ := ctx
  revert c v
  decide

/-- A designator reads its selectors as long as one starts. -/
theorem designator : Parses g x known (Script.designator g.context) [.call .designator] fun _ => True := by
  obtain ⟨round, heq, hround⟩ := designator_eq g
  have hloop : ∀ y first, Parses g y Unknown (Script.loop first round) [.many [.call .selector]] fun _ => True :=
    fun y first => loop trivial fun selected _ => hround y selected
  rw [heq]
  refine productionBefore fun y => ⟨fun v hv => ?_, fun v u hv hu hafter => ?_⟩
  · have hrow : Parses g y known (Script.enter .designator >>= fun _ => Script.qualident g.context >>= fun first =>
        Script.loop first round) [.call .qualident, .many [.call .selector]] fun _ => True :=
      enter (part qualident fun first _ => hloop y first)
    exact hrow.sound v hv
  · have hstop : ¬Qualifies u := by
      intro hu
      rw [hu.1] at hafter
      simp [Production.ends, Production.follow] at hafter
    obtain ⟨k, ⟨z, hk⟩, hselectors⟩ := takes_call.mp hu
    obtain ⟨s, v, rfl, hs, hparts⟩ := takes_token.mp hk
    obtain ⟨m, hm, hm', hselectors⟩ := takes_parts hstop hparts hselectors
    have hqualident : Takes g.rules y [.call .qualident] (s :: v) m :=
      takes_call.mpr ⟨m, ⟨z, takes_token.mpr ⟨s, v, rfl, hs, hm⟩⟩, takes_nil.mpr rfl⟩
    refine ensures_bind.mpr (ensures_bind.mpr ((completes_qualident hqualident hm').mono ?_))
    rintro first w ⟨rfl, -⟩
    exact (hloop y first).complete _ w u (decides_selectors g.context) trivial hselectors hafter

/-! ## Expressions -/

/-- An element of a set reads its second bound after two points. -/
theorem element : Parses g x known Script.element [.call .element] fun _ => True := by
  refine production (decides_rules g .element rfl nofun) fun y => enter ?_
  refine part (call fun _ _ => trivial) fun low _ => nextIs rfl rfl ?_ (pure trivial)
  exact skip (fun v hv => hv) (by simp) (part (call fun _ _ => trivial) fun high _ => branch (by simp))

/-- A set reads its elements between braces, if there are any. -/
theorem setValue :
    Parses g x (Starts g .setValue) (Script.setValue g.context) [.call .setValue] fun _ => True := by
  refine production (decides_rules g .setValue rfl nofun) fun y => enter ?_
  refine skip (fun v => eq_of_starts rfl) (by simp) ?_
  refine optionalStarts (S := fun _ => True) rfl rfl trivial (fun elements _ => ?_) fun hrest =>
    bind (separated (by simp) element element) hrest
  exact expect (by simp) (list (by simp))

/-- One token decides what comes after a designator in an expression, unless the types of set values have to be names. -/
theorem decides_designatorOrFuncCall (hplain : g.namesSetTypes = false) :
    decides g.context (g.rules .designatorOrFuncCall) (Production.designatorOrFuncCall.ends g.context) = true := by
  obtain ⟨⟨c, v⟩, n⟩ := g
  obtain rfl : n = false := hplain
  revert c v
  decide

/-- A designator reads a set or arguments if one starts; the set is not read where its type has to be a name. -/
theorem designatorOrFuncCall (hplain : g.namesSetTypes = false) :
    Parses g x known (Script.designatorOrFuncCall g.context) [.call .designatorOrFuncCall] fun _ => True := by
  have hrow : g.rules .designatorOrFuncCall =
      .call .designator :: Ebnf.oneOf [[.call .setValue], [Ebnf.opt [.call .actualParameters]]] := by
    simp [Grammar.rules, hplain]
  refine production (decides_designatorOrFuncCall hplain) fun y => enter ?_
  rw [hrow]
  refine part designator fun head _ => starts rfl rfl ?_ (starts rfl rfl ?_ (pure trivial))
  · exact part setValue fun elements _ => setValueNode (by simp [hplain])
  · exact part actualParameters fun arguments _ => branch (by simp)

variable (hplain : g.namesSetTypes = false)

include hplain

/-- A factor reads the alternative that starts. -/
theorem factor : Parses g x known (Script.factor g.context) [.call .factor] fun _ => True := by
  have hliteral : ∀ t, (literal? t).isSome = decide (t ∈ [.integer, .real, .char, .string]) := fun t => by cases t <;> rfl
  refine production (decides_rules g .factor rfl nofun) fun y => enter (lookahead fun t => ?_)
  cases hfound : literal? t with
  | some literal =>
    have hmem := of_decide_eq_true ((hliteral t).symm.trans (by rw [hfound]; rfl))
    refine left (fun v hv => ?_) (acceptAny (fun v hv => hv.2 ▸ hmem) (by simp) fun lexeme => ?_)
    · rw [contains_firstOf_anyOf (by simp), hv.2, decide_eq_true hmem]
    · refine terminal ?_
      cases t <;> cases hfound <;> simp
  | none =>
    have hmem := of_decide_eq_false ((hliteral t).symm.trans (by rw [hfound]; rfl))
    refine right rfl (fun v hv => ?_) ?_
    · rw [contains_firstOf_anyOf (by simp), hv.2, decide_eq_false hmem]
    · refine starts rfl rfl (part setValue fun elements _ => setValueNode (by simp [hplain])) ?_
      refine starts rfl rfl (designatorOrFuncCall hplain) (demandNext rfl ?_ (noAlternative rfl))
      refine skip (fun v hv => hv) (by simp) ?_
      exact part (call fun _ _ => trivial) fun inner _ => expect (by simp) (pure trivial)

/-- A term reads its negation, if it has one. -/
theorem simpleTerm : Parses g x known (Script.simpleTerm g.context) [.call .simpleTerm] fun _ => True := by
  refine production (decides_rules g .simpleTerm rfl nofun) fun y => enter ?_
  refine nextIs rfl rfl (skip (fun v hv => hv) (by simp) ?_) (factor hplain)
  exact ending (factor hplain) fun operand _ => branch (by simp)

/-- Factors are read with operators between them. -/
theorem term : Parses g x known (Script.term g.context) [.call .term] fun _ => True := by
  refine production (decides_rules g .term rfl nofun) fun y => enter (part (simpleTerm hplain) fun first _ => ?_)
  refine leftAssociative (by simp) (by simp) (fun t => by cases t <;> rfl) (fun t n h => ?_) (simpleTerm hplain)
  cases t <;> cases h <;> simp

/-- The first term of a sum, with or without a sign in front of it. -/
theorem signedTerm : Parses g x known (Script.signedTerm g.context) [Ebnf.opt (Ebnf.anyOf [.plus, .minus]), .call .term]
    fun _ => True := by
  refine lookahead fun t => ?_
  split
  · refine left (fun v hv => ?_) (skipAny (fun v hv => ?_) (by simp) (term hplain))
    · rw [contains_firstOf_anyOf (by simp), hv.2]
      rfl
    · simp [hv.2]
  · refine left (fun v hv => ?_) (skipAny (fun v hv => ?_) (by simp) (ending (term hplain) fun operand _ => branch (by simp)))
    · rw [contains_firstOf_anyOf (by simp), hv.2]
      rfl
    · simp [hv.2]
  · refine right rfl (fun v hv => ?_) (term hplain)
    rw [contains_firstOf_anyOf (by simp), hv.2]
    simp_all

/-- Terms are read with operators between them, after a sign if there is one. -/
theorem simpleExpression :
    Parses g x known (Script.simpleExpression g.context) [.call .simpleExpression] fun _ => True := by
  refine production (decides_rules g .simpleExpression rfl nofun) fun y => enter ?_
  refine bind (signedTerm hplain) fun first _ => ?_
  refine leftAssociative (by simp) (by simp) (fun t => by cases t <;> rfl) (fun t n h => ?_) (term hplain)
  cases t <;> cases h <;> simp

/-- An expression reads a relation at most. -/
theorem expression : Parses g x known (Script.expression g.context) [.call .expression] fun _ => True := by
  have hrelation : ∀ t, (relation? t).isSome =
      decide (t ∈ [.equal, .notEqual, .less, .lessEqual, .greater, .greaterEqual, .kwIn]) := fun t => by cases t <;> rfl
  refine production (decides_rules g .expression rfl nofun) fun y => enter ?_
  refine part (simpleExpression hplain) fun first _ => lookahead fun t => ?_
  cases hfound : relation? t with
  | some operator =>
    have hmem := of_decide_eq_true ((hrelation t).symm.trans (by rw [hfound]; rfl))
    refine left (fun v hv => ?_) ?_
    · rw [contains_firstOf_append, contains_firstOf_anyOf (by simp), hv.2, decide_eq_true hmem, Bool.true_or]
    · rw [List.append_nil]
      refine skipAny (fun v hv => hv.2 ▸ hmem) (by simp) (part (simpleExpression hplain) fun second _ => branch ?_)
      cases t <;> cases hfound <;> simp
  | none =>
    have hmem := of_decide_eq_false ((hrelation t).symm.trans (by rw [hfound]; rfl))
    refine right rfl (fun v hv => ?_) (pure trivial)
    rw [contains_firstOf_append, contains_firstOf_anyOf (by simp), hv.2, decide_eq_false hmem,
      allNullable_anyOf (by simp), Bool.false_and, Bool.or_false]

end Modula.Script.Parses
